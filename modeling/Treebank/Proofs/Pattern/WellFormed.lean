import Treebank.Proofs.Pattern.Outcome
import Treebank.Proofs.Pattern.Registry

/-!
# Well-formed patterns

What a pattern that was read can be relied on for: its lists of names belong to its tree, names are introduced outside of negations, and
every constraint at any depth makes sense by itself (`wellFormed_ofText`).
-/

namespace Treebank

namespace Pattern

/-! ## Constraints at any depth -/

mutual
/-- A constraint and all that are within it. -/
def Constraint.nested : Constraint → List Constraint
  | .relation mode operator target none => [.relation mode operator target none]
  | .relation mode operator target (some inner) => .relation mode operator target (some inner) :: inner.nested
  | .all mode children => .all mode children :: nestedIn children
  | .any mode children => .any mode children :: nestedIn children

/-- Some constraints and all that are within them. -/
def nestedIn : List Constraint → List Constraint
  | [] => []
  | c :: cs => c.nested ++ nestedIn cs
end

theorem mem_nestedIn {d : Constraint} {cs : List Constraint} : d ∈ nestedIn cs ↔ ∃ c ∈ cs, d ∈ c.nested := by
  induction cs with
  | nil => simp [nestedIn]
  | cons c cs ih => simp only [nestedIn, List.mem_append, ih, List.mem_cons, exists_eq_or_imp]

/-- All constraints within one that was read are such ones. -/
theorem Constraint.IsRead.nested {c : Constraint} (h : c.IsRead) : ∀ d ∈ c.nested, d.IsRead := by
  induction h with
  | relation mode ho ht =>
    intro d hd
    rw [List.mem_singleton.1 hd]
    exact .relation mode ho ht
  | target mode ho ht hinner ih => exact List.forall_mem_cons.2 ⟨.target mode ho ht hinner, ih⟩
  | all mode hne hgroup h ih =>
    refine List.forall_mem_cons.2 ⟨.all mode hne hgroup h, fun d hd => ?_⟩
    obtain ⟨c, hc, hd⟩ := mem_nestedIn.1 hd
    exact ih c hc d hd
  | any mode hmany h ih =>
    refine List.forall_mem_cons.2 ⟨.any mode hmany h, fun d hd => ?_⟩
    obtain ⟨c, hc, hd⟩ := mem_nestedIn.1 hd
    exact ih c hc d hd

/-! ## Constraints that make sense -/

/-- An operator that makes sense: labels, names of edges and bounds stand only where they mean something, and bounds can be met. -/
structure Operator.WellFormed (o : Operator) : Prop where
  label : o.label ≠ .any → o.kind.sign ∈ [">", "<", ">>", "<<"]
  edgeName : o.edgeName ≠ none → o.kind.sign ∈ [">", "<", ">>", "<<"]
  bounds : o.minDepth ≠ 0 ∨ o.maxDepth ≠ 0 → o.kind.sign ∈ [">>", "<<"] ∧ o.minDepth ≤ o.maxDepth ∧ 1 ≤ o.maxDepth

/-- A constraint that makes sense, whatever is within it: its operator does, a group has a member, and alternatives are several. -/
def Constraint.WellFormed : Constraint → Prop
  | relation _ operator _ _ => operator.WellFormed
  | all _ children => 1 ≤ children.length
  | any _ children => 2 ≤ children.length

theorem Kind.sign_mem_of_followsEdges {k : Kind} (h : k.followsEdges) : k.sign ∈ [">", "<", ">>", "<<"] := by
  revert h
  cases k <;> decide

theorem Kind.sign_mem_of_isTransitive {k : Kind} (h : k.isTransitive) : k.sign ∈ [">>", "<<"] := by
  revert h
  cases k <;> decide

/-- An operator that was read makes sense. -/
theorem Operator.IsRead.wellFormed {o : Operator} (h : o.IsRead) : o.WellFormed := by
  obtain ⟨i, cs, rest, h⟩ := h
  obtain ⟨depth, -, -, -, -, hdepth, hbounds, -, -, hfollows⟩ := takeOperator_eq_ok_iff.1 h
  have hedges : o.label ≠ .any ∨ o.edgeName ≠ none → o.kind.followsEdges := by
    intro hgiven
    cases hkind : o.kind.followsEdges with
    | true => rfl
    | false =>
      obtain ⟨hlabel, hname⟩ := hfollows hkind
      rcases hgiven with hgiven | hgiven
      · exact absurd hlabel hgiven
      · exact absurd hname hgiven
  refine ⟨fun h => Kind.sign_mem_of_followsEdges (hedges (.inl h)), fun h => Kind.sign_mem_of_followsEdges (hedges (.inr h)),
    fun hgiven => ?_⟩
  cases depth with
  | none =>
    obtain ⟨hmin, hmax⟩ := Prod.mk.inj hbounds
    rcases hgiven with hgiven | hgiven
    · exact absurd hmin.symm hgiven
    · exact absurd hmax.symm hgiven
  | some bounds =>
    obtain ⟨htransitive, hfits⟩ := hdepth rfl
    obtain ⟨hle, hlt⟩ : o.minDepth ≤ o.maxDepth ∧ 0 < o.maxDepth := by simpa [depthFits] using hfits
    exact ⟨Kind.sign_mem_of_isTransitive htransitive, hle, hlt⟩

/-- A constraint that was read makes sense. -/
theorem Constraint.IsRead.wellFormed {c : Constraint} (h : c.IsRead) : c.WellFormed := by
  cases h with
  | relation mode ho ht => exact ho.wellFormed
  | target mode ho ht hinner => exact ho.wellFormed
  | all mode hne hgroup h => exact List.length_pos_iff.2 hne
  | any mode hmany h => exact hmany

end Pattern

/-! ## Patterns -/

/-- All constraints of a pattern. -/
def Pattern.constraints (p : Pattern) : List Pattern.Constraint := p.parts.flatMap fun part => Pattern.nestedIn part.constraint.toList

/-- The names that a pattern mentions, in the order of its text. -/
def Pattern.mentions (p : Pattern) : Pattern.Mentions := p.parts.flatMap Pattern.Part.mentions

/-- A well-formed pattern. -/
structure Pattern.WellFormed (p : Pattern) : Prop where
  /-- No name stands twice, be it that of a token or that of an edge. -/
  nodup : p.captureNames.Nodup
  /-- The names of tokens are those in the tree, in the order in which they occur first. -/
  nodeNames : p.nodeNames = (Pattern.nodesOf p.mentions).eraseDups
  /-- The names of edges are those in the tree, in the order in which they occur first. -/
  edgeNames : p.edgeNames = (Pattern.edgesOf p.mentions).eraseDups
  /-- Every name occurs first outside of all negations. -/
  introduced : ∀ name m, p.mentions.find? (·.2.name == name) = some m → m.1 = false
  /-- Descriptions of one token that are not blank are written alike. -/
  described : ∀ name u d u' d', (u, .node name d) ∈ p.mentions → (u', .node name d') ∈ p.mentions → d.isBlank = false →
    d'.isBlank = false → d.text = d'.text
  /-- No constraint is both negated and optional. -/
  modes : ∀ c ∈ p.constraints, ¬ (c.mode = .negated ∧ c.mode = .optional)
  constraints : ∀ c ∈ p.constraints, c.WellFormed

namespace Pattern

/-- The names of a pattern that was read keep track of what it mentions. -/
theorem tracks_ofText {o : PatternOptions} {text : String} {p : Pattern} (h : ofText o text = .ok p) :
    ∃ names : Names, names.Tracks p.mentions ∧ p.nodeNames = Pairs.keys names.nodes ∧ p.edgeNames = names.edges := by
  obtain ⟨names, hregister, hp⟩ := register_of_ofText h
  refine ⟨names, tracks_of_register hregister, ?_, ?_⟩
  · rw [hp]
  · rw [hp]

/-- A pattern that was read is well formed. -/
theorem wellFormed_ofText {o : PatternOptions} {text : String} {p : Pattern} (h : ofText o text = .ok p) : p.WellFormed := by
  obtain ⟨names, htracks, hnodes, hedges⟩ := tracks_ofText h
  refine ⟨?_, hnodes.trans htracks.nodes, hedges.trans htracks.edges, htracks.first, ?_, ?_, fun c hc => ?_⟩
  · rw [Pattern.captureNames, hnodes, hedges]
    exact htracks.nodup
  · intro name u d u' d' hd hd'
    exact htracks.text_eq hd hd'
  · rintro c - ⟨hnegated, hoptional⟩
    rw [hnegated] at hoptional
    cases hoptional
  · obtain ⟨part, hpart, hc⟩ := List.mem_flatMap.1 hc
    obtain ⟨top, htop, hc⟩ := mem_nestedIn.1 hc
    obtain ⟨-, hread⟩ := isRead_of_ofText h part hpart
    exact ((hread top (Option.mem_toList.1 htop)).nested c hc).wellFormed

end Pattern

end Treebank

import Treebank.Pattern.Reader
import Treebank.Proofs.Except
import Treebank.Proofs.Pairs

/-!
# Names of patterns

A pattern mentions names of tokens and of edges, some of them under a negation. Reading adds them one after the other to the names met
so far: it keeps those, and under a negation it adds no new one.
-/

namespace Treebank.Pattern

variable {rest : List Char} {i : Input}

/-! ## More names -/

/-- How many names there are. -/
def Names.size (names : Names) : Nat := names.nodes.length + names.edges.length

/-- Names that begin with those there were. -/
structure Names.Extends (names names' : Names) : Prop where
  nodes : Pairs.keys names.nodes <+: Pairs.keys names'.nodes
  edges : names.edges <+: names'.edges

theorem Names.extends_refl (names : Names) : names.Extends names := ⟨List.prefix_refl _, List.prefix_refl _⟩

theorem Names.Extends.trans {a b c : Names} (h : a.Extends b) (h' : b.Extends c) : a.Extends c :=
  ⟨h.nodes.trans h'.nodes, h.edges.trans h'.edges⟩

theorem Names.Extends.size_le {a b : Names} (h : a.Extends b) : a.size ≤ b.size := by
  have hnodes := h.nodes.length_le
  have hedges := h.edges.length_le
  simp only [Pairs.keys, List.length_map] at hnodes
  unfold Names.size
  omega

/-- As many names are the same names. -/
theorem Names.Extends.eq_of_size {a b : Names} (h : a.Extends b) (hsize : b.size = a.size) :
    Pairs.keys b.nodes = Pairs.keys a.nodes ∧ b.edges = a.edges := by
  have hnodes := h.nodes.length_le
  have hedges := h.edges.length_le
  simp only [Pairs.keys, List.length_map] at hnodes
  unfold Names.size at hsize
  refine ⟨(h.nodes.eq_of_length ?_).symm, (h.edges.eq_of_length (by omega)).symm⟩
  simp only [Pairs.keys, List.length_map]
  omega

/-- The same names are as many. -/
theorem Names.size_eq {a b : Names} (hnodes : Pairs.keys b.nodes = Pairs.keys a.nodes) (hedges : b.edges = a.edges) :
    b.size = a.size := by
  have := congrArg List.length hnodes
  simp only [Pairs.keys, List.length_map] at this
  rw [Names.size, this, hedges, Names.size]

/-- A token adds its name, which is new and not under a negation; or it puts its description in the place of a blank one; or it changes
nothing, since its description is blank or says the same. -/
theorem Names.addNode_cases {names names' : Names} {u : Bool} {x : String} {d : Description} (h : names.addNode u x d = .ok names') :
    x ∉ names.edges ∧
      ((names.nodes.lookup x = none ∧ u = false ∧ names' = { names with nodes := names.nodes ++ [(x, d)] }) ∨
        ∃ previous, names.nodes.lookup x = some previous ∧
          ((previous.isBlank = true ∧ names' = { names with nodes := Pairs.put names.nodes x d }) ∨
            (previous.isBlank = false ∧ (d.isBlank = false → d.text = previous.text) ∧ names' = names))) := by
  unfold Names.addNode at h
  split at h
  · cases h
  rename_i hedge
  refine ⟨by simpa using hedge, ?_⟩
  split at h
  · rename_i hnone
    split at h
    · cases h
    · rename_i hu
      cases h
      exact .inl ⟨hnone, by simpa using hu, rfl⟩
  · rename_i previous hprevious
    refine .inr ⟨previous, hprevious, ?_⟩
    split at h
    · rename_i hblank
      cases h
      exact .inl ⟨hblank, rfl⟩
    · rename_i hblank
      split at h
      · cases h
      · rename_i hsame
        cases h
        exact .inr ⟨by simpa using hblank, by simpa using hsame, rfl⟩

/-- What a token adds to the names. -/
theorem Names.extends_addNode {names names' : Names} {u : Bool} {name : String} {d : Description}
    (h : names.addNode u name d = .ok names') : names.Extends names' ∧ (u = true → names'.size = names.size) := by
  obtain ⟨-, ⟨-, rfl, rfl⟩ | ⟨previous, hprevious, ⟨-, rfl⟩ | ⟨-, -, rfl⟩⟩⟩ := Names.addNode_cases h
  · refine ⟨⟨?_, List.prefix_refl _⟩, Bool.noConfusion⟩
    simp only [Pairs.keys, List.map_append]
    exact List.prefix_append _ _
  · have hkeys := Pairs.keys_put_of_has (Pairs.has_of_lookup hprevious) d
    refine ⟨⟨?_, List.prefix_refl _⟩, fun _ => Names.size_eq hkeys rfl⟩
    exact hkeys ▸ List.prefix_refl _
  · exact ⟨Names.extends_refl _, fun _ => rfl⟩

/-- Under a negation a name is added as elsewhere, if it is there already. -/
theorem Names.addNode_eq_ok {names names' : Names} {u u' : Bool} {name : String} {d : Description}
    (h : names.addNode u name d = .ok names') (hu : u' = true → names'.size = names.size) :
    names.addNode u' name d = .ok names' := by
  unfold Names.addNode at h ⊢
  split at h
  · cases h
  rename_i hboth
  rw [if_neg hboth]
  split at h
  · rename_i hnone
    split at h
    · cases h
    · cases h
      exact if_neg fun h => absurd (hu h) (by simp [Names.size])
  · exact h

/-- An edge adds its name, which is new and not under a negation, or it changes nothing. -/
theorem Names.addEdge_cases {names names' : Names} {u : Bool} {x : String} (h : names.addEdge u x = .ok names') :
    names.nodes.lookup x = none ∧
      ((x ∉ names.edges ∧ u = false ∧ names' = { names with edges := names.edges ++ [x] }) ∨
        (x ∈ names.edges ∧ names' = names)) := by
  unfold Names.addEdge at h
  split at h
  · cases h
  rename_i hnode
  refine ⟨Pairs.lookup_eq_none_iff_notMem.2 (mt Pairs.has_iff_mem.2 hnode), ?_⟩
  split at h
  · rename_i hknown
    cases h
    exact .inr ⟨by simpa using hknown, rfl⟩
  rename_i hnew
  split at h
  · cases h
  · rename_i hu
    cases h
    exact .inl ⟨by simpa using hnew, by simpa using hu, rfl⟩

/-- What an edge adds to the names. -/
theorem Names.extends_addEdge {names names' : Names} {u : Bool} {name : String} (h : names.addEdge u name = .ok names') :
    names.Extends names' ∧ (u = true → names'.size = names.size) := by
  obtain ⟨-, ⟨-, rfl, rfl⟩ | ⟨-, rfl⟩⟩ := Names.addEdge_cases h
  · exact ⟨⟨List.prefix_refl _, List.prefix_append _ _⟩, Bool.noConfusion⟩
  · exact ⟨Names.extends_refl _, fun _ => rfl⟩

theorem Names.addEdge_eq_ok {names names' : Names} {u u' : Bool} {name : String} (h : names.addEdge u name = .ok names')
    (hu : u' = true → names'.size = names.size) : names.addEdge u' name = .ok names' := by
  unfold Names.addEdge at h ⊢
  split at h
  · cases h
  rename_i hboth
  rw [if_neg hboth]
  split at h
  · rename_i hknown
    rw [if_pos hknown]
    exact h
  rename_i hnew
  rw [if_neg hnew]
  split at h
  · cases h
  · cases h
    exact if_neg fun h => absurd (hu h) (by simp [Names.size])

/-! ## Names that are mentioned -/

/-- The mention of a name: that of an edge, or that of a token with its description. -/
inductive Mention where
  | edge (name : String)
  | node (name : String) (d : Description)

/-- Mentions in the order in which they stand, each with whether it stands under a negation. -/
abbrev Mentions := List (Bool × Mention)

/-- Adds a name that is mentioned. -/
def Names.addMention (names : Names) (underNegation : Bool) : Mention → Except Fault Names
  | .edge name => names.addEdge underNegation name
  | .node name d => names.addNode underNegation name d

/-- Adds names that are mentioned, one after the other. -/
def Names.register (names : Names) (ms : Mentions) : Except Fault Names :=
  ms.foldlM (fun names m => names.addMention m.1 m.2) names

/-- Mentions within a constraint that is under a negation, or is not. -/
def under (underNegation : Bool) (ms : Mentions) : Mentions := ms.map fun m => (underNegation || m.1, m.2)

variable {names names' : Names} {ms ms' : Mentions} {u u' : Bool}

@[simp]
theorem register_nil : names.register [] = .ok names := rfl

/-- Names are added in the order in which they are mentioned. -/
theorem register_append : names.register (ms ++ ms') = names.register ms >>= fun names => names.register ms' := by
  unfold Names.register
  exact List.foldlM_append

theorem register_append_eq_ok_iff :
    names.register (ms ++ ms') = .ok names' ↔ ∃ names₁, names.register ms = .ok names₁ ∧ names₁.register ms' = .ok names' := by
  rw [register_append, bind_eq_ok_iff]

theorem register_singleton (m : Bool × Mention) : names.register [m] = names.addMention m.1 m.2 := by
  unfold Names.register
  rw [List.foldlM_cons]
  exact bind_pure _

@[simp]
theorem under_nil : under u [] = [] := rfl

@[simp]
theorem under_append : under u (ms ++ ms') = under u ms ++ under u ms' := List.map_append

@[simp]
theorem under_false : under false ms = ms := by simp [under]

@[simp]
theorem under_under : under u (under u' ms) = under (u || u') ms := by simp [under, Bool.or_assoc]

/-- The same mentions, of which fewer may be under a negation. -/
def Milder (ms ms' : Mentions) : Prop := List.Forall₂ (fun m m' => m.2 = m'.2 ∧ (m.1 = true → m'.1 = true)) ms ms'

theorem milder_refl (ms : Mentions) : Milder ms ms := List.forall₂_same.2 fun _ _ => ⟨rfl, id⟩

/-- A negation less makes mentions milder. -/
theorem Milder.under (h : Milder ms ms') (hu : u = true → u' = true) : Milder (under u ms) (under u' ms') := by
  unfold Milder Pattern.under
  rw [List.forall₂_map_left_iff, List.forall₂_map_right_iff]
  refine h.imp fun m m' hm => ⟨hm.1, fun hneg => ?_⟩
  rcases Bool.or_eq_true_iff.1 hneg with hneg | hneg
  · simp [hu hneg]
  · simp [hm.2 hneg]

/-- Milder mentions behind the same ones. -/
theorem Milder.append_left (h : Milder ms ms') (before : Mentions) : Milder (before ++ ms) (before ++ ms') := by
  induction before with
  | nil => exact h
  | cons m before ih => exact .cons ⟨rfl, id⟩ ih

/-- What a mention adds to the names. -/
theorem extends_addMention {m : Mention} (h : names.addMention u m = .ok names') :
    names.Extends names' ∧ (u = true → names'.size = names.size) := by
  cases m with
  | edge name => exact Names.extends_addEdge h
  | node name d => exact Names.extends_addNode h

/-- Under a negation a name that is mentioned is added as elsewhere, if it is there already. -/
theorem addMention_eq_ok {m : Mention} (h : names.addMention u m = .ok names') (hu : u' = true → names'.size = names.size) :
    names.addMention u' m = .ok names' := by
  cases m with
  | edge name => exact Names.addEdge_eq_ok h hu
  | node name d => exact Names.addNode_eq_ok h hu

/-- What mentions add to the names. -/
theorem extends_register_under (h : names.register (under u ms) = .ok names') :
    names.Extends names' ∧ (u = true → names'.size = names.size) := by
  induction ms generalizing names with
  | nil =>
    cases h
    exact ⟨Names.extends_refl _, fun _ => rfl⟩
  | cons m ms ih =>
    obtain ⟨names₁, hadd, hrest⟩ := bind_eq_ok_iff.1 h
    obtain ⟨hext, hsize⟩ := extends_addMention hadd
    obtain ⟨hext', hsize'⟩ := ih hrest
    refine ⟨hext.trans hext', fun hu => ?_⟩
    rw [hsize' hu, hsize (by simp [hu])]

/-- Under a negation names are added as elsewhere, if they are there already. -/
theorem register_under_eq_ok (h : names.register (under u ms) = .ok names') (hu : u' = true → names'.size = names.size) :
    names.register (under u' ms) = .ok names' := by
  induction ms generalizing names with
  | nil => exact h
  | cons m ms ih =>
    obtain ⟨names₁, hadd, hrest⟩ := bind_eq_ok_iff.1 h
    obtain ⟨hext, hsize⟩ := extends_addMention hadd
    have hle := hext.size_le
    have hle' := (extends_register_under hrest).1.size_le
    refine bind_eq_ok_iff.2 ⟨names₁, addMention_eq_ok hadd fun hneg => ?_, ih hrest fun hneg => ?_⟩
    · rcases Bool.or_eq_true_iff.1 hneg with hneg | hneg
      · have := hu hneg
        omega
      · exact hsize (by simp [hneg])
    · have := hu hneg
      omega

/-- Names that could be added can be added if fewer of them are under a negation. -/
theorem register_of_milder (hms : Milder ms ms') (h : names.register ms' = .ok names') : names.register ms = .ok names' := by
  unfold Milder at hms
  induction hms generalizing names with
  | nil => exact h
  | cons hm _ ih =>
    obtain ⟨hsame, hu⟩ := hm
    unfold Names.register at h ⊢
    rw [List.foldlM_cons] at h ⊢
    obtain ⟨names₁, hadd, hrest⟩ := bind_eq_ok_iff.1 h
    rw [← hsame] at hadd
    exact bind_eq_ok_iff.2 ⟨names₁, addMention_eq_ok hadd fun hneg => (extends_addMention hadd).2 (hu hneg), ih hrest⟩

/-! ## Mentions in a pattern -/

/-- The name of an edge that an operator mentions. -/
def Operator.mentions (o : Operator) : Mentions := (o.edgeName.map fun name => (false, Mention.edge name)).toList

/-- The name of a token that a place mentions. -/
def Place.mentions (p : Place) : Mentions := (p.name.map fun name => (false, Mention.node name p.description)).toList

mutual
/-- The names that a constraint mentions. -/
def Constraint.mentions : Constraint → Mentions
  | .relation mode operator target none => under (mode == .negated) (operator.mentions ++ target.mentions)
  | .relation mode operator target (some inner) =>
    under (mode == .negated) (operator.mentions ++ target.mentions ++ inner.mentions)
  | .all mode children => under (mode == .negated) (mentioned children)
  | .any mode children => under (mode == .negated) (mentioned children)

/-- The names that constraints mention. -/
def mentioned : List Constraint → Mentions
  | [] => []
  | c :: cs => c.mentions ++ mentioned cs
end

/-- The names that a part mentions. -/
def Part.mentions (p : Part) : Mentions := p.place.mentions ++ mentioned p.constraint.toList

@[simp]
theorem mentioned_append (cs cs' : List Constraint) : mentioned (cs ++ cs') = mentioned cs ++ mentioned cs' := by
  induction cs with
  | nil => rfl
  | cons c cs ih => simp only [List.cons_append, mentioned, ih, List.append_assoc]

/-- An operator adds the name of the edge that it mentions. -/
theorem addEdgeOf_eq_ok_iff {operator : Operator} :
    names.addEdgeOf i u operator rest = .ok names' ↔ names.register (under u operator.mentions) = .ok names' := by
  unfold Names.addEdgeOf Operator.mentions
  cases operator.edgeName with
  | none => simp
  | some name =>
    have hone : names.register (under u [(false, .edge name)]) = names.addEdge u name := by
      rw [under, List.map_singleton, register_singleton, Bool.or_false, Names.addMention]
    simp only [Option.map_some, Option.toList_some, hone]
    cases names.addEdge u name with
    | error fault => simp [Except.mapError]
    | ok names₁ => simp [Except.mapError]

end Treebank.Pattern

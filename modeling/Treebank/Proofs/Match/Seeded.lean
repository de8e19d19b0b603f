import Treebank.Proofs.Match.Captures

/-!
# Searches from bindings

A search that starts from bindings and one that starts from nothing go hand in hand (`Seeded`): where the first one goes on, the second
one does, and where the second one binds a name to something else than the start does, all that it comes to from there does so, and the
first one has stopped. Negated constraints are no exception, since all names in them are bound before. So the matches of the first
search are those of the second one that agree with the start (`findAll_seeded`).
-/

namespace Treebank

/-! ## Lists of which one is filtered -/

section Lists

variable {α α' β β' γ : Type} {R : α → α' → Prop} {S : β → β' → Prop} {q : α' → Bool} {r : β' → Bool}

/-- Going on from two lists of which the second one is filtered: from members that are left out comes nothing that stays. -/
theorem forall₂_flatMap_filter {as : List α} {as' : List α'} {f : α → List β} {f' : α' → List β'}
    (h : List.Forall₂ R as (as'.filter q)) (hgo : ∀ a, ∀ a' ∈ as', R a a' → List.Forall₂ S (f a) ((f' a').filter r))
    (hstop : ∀ a' ∈ as', q a' = false → ∀ b ∈ f' a', r b = false) :
    List.Forall₂ S (as.flatMap f) ((as'.flatMap f').filter r) := by
  induction as' generalizing as with
  | nil =>
    cases h
    exact .nil
  | cons a' as' ih =>
    have ih := fun {as : List α} (h : List.Forall₂ R as (as'.filter q)) => ih h
      (fun a b hb => hgo a b (List.mem_cons_of_mem a' hb)) fun b hb => hstop b (List.mem_cons_of_mem a' hb)
    rw [List.flatMap_cons, List.filter_append]
    cases hq : q a' with
    | true =>
      rw [List.filter_cons_of_pos hq] at h
      cases h with
      | cons hR h => exact List.rel_append (hgo _ a' (List.mem_cons_self ..) hR) (ih h)
    | false =>
      rw [List.filter_cons_of_neg (by simp [hq])] at h
      rw [List.filter_eq_nil_iff.2 fun b hb => by simp [hstop a' (List.mem_cons_self ..) hq b hb]]
      exact ih h

/-- Going on from one list in two ways, of which the second one is filtered. -/
theorem forall₂_flatMap_filter_same {l : List γ} {f : γ → List β} {f' : γ → List β'}
    (h : ∀ c ∈ l, List.Forall₂ S (f c) ((f' c).filter r)) : List.Forall₂ S (l.flatMap f) ((l.flatMap f').filter r) := by
  refine forall₂_flatMap_filter (R := Eq) (q := fun _ => true) ?_ ?_ fun _ _ hq => by cases hq
  · rw [List.filter_true]
    exact List.forall₂_same.2 fun _ _ => rfl
  · rintro c c' hc rfl
    exact h c hc

end Lists

namespace Pattern

open Scope

/-! ## Bindings that agree with the start -/

variable {start : List (String × Int)} {s : Scope} {index : Int} {b b' b'' : Bindings} {names names' : Names} {ms : Mentions}

/-- Whether bindings agree with those from the start on the names that both bind. -/
def Bindings.agrees (start : List (String × Int)) (b : Bindings) : Bool :=
  (Pairs.keys start).all fun x => (b.nodes.lookup x).all fun i => start.lookup x == some i

theorem agrees_iff : b.agrees start = true ↔ ∀ x i j, start.lookup x = some i → b.nodes.lookup x = some j → j = i := by
  unfold Bindings.agrees
  rw [List.all_eq_true]
  constructor
  · intro h x i j hi hj
    have hx := h x (Pairs.isSome_lookup_iff.1 (by rw [hi]; rfl))
    rw [hj, hi] at hx
    exact (Option.some.inj (eq_of_beq hx)).symm
  · intro h x hx
    obtain ⟨i, hi⟩ := Option.isSome_iff_exists.1 (Pairs.isSome_lookup_iff.2 hx)
    refine (Option.all_eq_true ..).2 fun j hj => beq_iff_eq.2 ?_
    rw [hi, h x i j hi hj]

/-- What a name is bound to stays when names are bound behind. -/
theorem Bindings.Extends.lookup_eq (h : b'.Extends b) {x : String} {i : Int} (hx : b.nodes.lookup x = some i) :
    b'.nodes.lookup x = some i := by
  obtain ⟨more, hmore⟩ := h.1
  rw [← hmore, List.lookup_append, hx]
  rfl

/-- Bindings that do not agree with the start do so no more when names are bound behind. -/
theorem not_agrees_of_extends (h : b'.Extends b) (hb : b.agrees start = false) : b'.agrees start = false := by
  refine Bool.eq_false_iff.2 fun h' => ?_
  refine Bool.eq_false_iff.1 hb (agrees_iff.2 fun x i j hi hj => ?_)
  exact agrees_iff.1 h' x i j hi (h.lookup_eq hj)

/-- The bindings of a search from the start, and those of the search from nothing that goes hand in hand with it. -/
structure Seeded (start : List (String × Int)) (b b' : Bindings) : Prop where
  nodes : ∀ x, b.nodes.lookup x = (b'.nodes.lookup x).or (start.lookup x)
  edges : b.edges = b'.edges
  agrees : b'.agrees start = true

/-! ## One place -/

/-- Bindings with one more token. -/
theorem lookup_bind (b : Bindings) (x y : String) (index : Int) :
    (b.nodes ++ [(x, index)]).lookup y = (b.nodes.lookup y).or (if y == x then some index else none) := by
  rw [List.lookup_append, Pairs.lookup_cons_eq, List.lookup_nil]

/-- One more token agrees with the start unless the start binds its name to another one. -/
theorem agrees_bind (hb : b.agrees start = true) {x : String} (hx : b.nodes.lookup x = none) (index : Int) :
    ({ b with nodes := b.nodes ++ [(x, index)] } : Bindings).agrees start = true ↔ ∀ i, start.lookup x = some i → i = index := by
  rw [agrees_iff]
  constructor
  · intro h i hi
    refine (h x i index hi ?_).symm
    rw [lookup_bind, hx, Option.none_or, if_pos (beq_self_eq_true x)]
  · intro h y i j hi hj
    rw [lookup_bind] at hj
    rcases Option.or_eq_some_iff.1 hj with hj | ⟨-, hj⟩
    · exact agrees_iff.1 hb y i j hi hj
    · split at hj
      · rename_i hyx
        rw [eq_of_beq hyx] at hi
        exact (Option.some.inj hj).symm.trans (h i hi).symm
      · cases hj

/-- Binding a token: where the start says otherwise, the search from it stops, and the bindings of the other one agree no longer. -/
theorem seeded_bindNode (hb : Seeded start b b') (name : Option String) (index : Int) :
    List.Forall₂ (Seeded start) (b.bindNode name index).toList ((b'.bindNode name index).toList.filter (·.agrees start)) := by
  have hone : ∀ {b b' : Bindings}, Seeded start b b' → List.Forall₂ (Seeded start) [b] ([b'].filter (·.agrees start)) := by
    intro b b' hb
    rw [List.filter_cons_of_pos hb.agrees]
    exact .cons hb .nil
  cases name with
  | none => exact hone hb
  | some x =>
    have hx := hb.nodes x
    unfold Bindings.bindNode
    cases hb' : b'.nodes.lookup x with
    | some j =>
      rw [hb', Option.some_or] at hx
      simp only [hx, hb']
      split
      · exact hone hb
      · exact .nil
    | none =>
      rw [hb', Option.none_or] at hx
      have hafter := agrees_bind hb.agrees hb' index
      -- The other search binds the name. What the start says of it decides the rest.
      cases hs : start.lookup x with
      | none =>
        rw [hs] at hx hafter
        simp only [hx, hb']
        refine hone ⟨fun y => ?_, hb.edges, hafter.2 (by simp)⟩
        rw [lookup_bind, lookup_bind, hb.nodes y]
        by_cases hy : y = x <;> simp [hy, hb', hs]
      | some i =>
        rw [hs] at hx hafter
        simp only [hx, hb']
        split
        · rename_i hi
          refine hone ⟨fun y => ?_, hb.edges, hafter.2 (by simp [hi])⟩
          rw [lookup_bind, hb.nodes y]
          by_cases hy : y = x <;> simp [hy, hb', hs, hi]
        · rename_i hi
          rw [Option.toList_some, List.filter_cons_of_neg fun h => hi (hafter.1 h i rfl)]
          exact .nil

/-- Binding an edge: neither search knows more of edges than the other. -/
theorem seeded_bindEdge (hb : Seeded start b b') (name : Option String) (edge : Option Edge) :
    (b.bindEdge name edge = none ∧ b'.bindEdge name edge = none) ∨
      ∃ b₁ b₁', b.bindEdge name edge = some b₁ ∧ b'.bindEdge name edge = some b₁' ∧ Seeded start b₁ b₁' := by
  unfold Bindings.bindEdge
  split
  · rename_i x e
    rw [hb.edges]
    split
    · exact .inr ⟨_, _, rfl, rfl, hb.nodes, rfl, hb.agrees⟩
    · split
      · exact .inr ⟨_, _, rfl, rfl, hb⟩
      · exact .inl ⟨rfl, rfl⟩
  · exact .inr ⟨_, _, rfl, rfl, hb⟩

theorem seeded_fill (hb : Seeded start b b') (p : Place) (s : Scope) (index : Int) :
    List.Forall₂ (Seeded start) (p.fill s index b).toList ((p.fill s index b').toList.filter (·.agrees start)) := by
  unfold Place.fill
  split
  · exact .nil
  · split
    · exact seeded_bindNode hb p.name index
    · exact .nil

theorem seeded_reach (hb : Seeded start b b') (o : Operator) (p : Place) (s : Scope) (c : Candidate) :
    List.Forall₂ (Seeded start) ((b.bindEdge o.edgeName c.2).bind (p.fill s c.1)).toList
      (((b'.bindEdge o.edgeName c.2).bind (p.fill s c.1)).toList.filter (·.agrees start)) := by
  rcases seeded_bindEdge hb o.edgeName c.2 with ⟨hn, hn'⟩ | ⟨b₁, b₁', hs, hs', hb₁⟩
  · rw [hn, hn']
    exact .nil
  · rw [hs, hs']
    exact seeded_fill hb₁ p s c.1

/-! ## Names that are bound before -/

/-- Whether all names of tokens that were met are bound. -/
def Known (names : Names) (b : Bindings) : Prop := ∀ x ∈ Pairs.keys names.nodes, b.Binds (.node x)

/-- What is mentioned, and certain to be bound outside of negations, is bound from then on. -/
theorem Known.after {may must : Mentions} (hknown : Known names b) (hregister : names.register may = .ok names')
    (hcaptures : Captures b b' may must) (hcertain : ∀ m, (false, m) ∈ may → (false, m) ∈ must) : Known names' b' := by
  intro x hx
  rcases (keys_register hregister).1 x hx with hx | ⟨d, hd⟩
  · exact hcaptures.kept _ (hknown x hx)
  · exact hcaptures.sure _ (mem_namesOf_node.2 (mem_nodesOf.2 ⟨false, d, hcertain _ hd⟩))

/-- Bindings behind others, with no new name of a token, agree with the start if these do. -/
theorem agrees_of_captures (hb : b.agrees start = true) (hext : b'.Extends b) (hcaptures : Captures b b' ms [])
    (hbound : ∀ x ∈ nodesOf ms, b.Binds (.node x)) : b'.agrees start = true := by
  refine agrees_iff.2 fun x i j hi hj => ?_
  have hx : b'.Binds (.node x) := by
    rw [binds_node, Pairs.keys, ← Pairs.isSome_lookup_iff, hj]
    rfl
  have hold : b.Binds (.node x) := (hcaptures.only _ hx).elim id fun hm => hbound x (mem_namesOf_node.1 hm)
  rw [binds_node, Pairs.keys, ← Pairs.isSome_lookup_iff] at hold
  obtain ⟨k, hk⟩ := Option.isSome_iff_exists.1 hold
  have hkj := hext.lookup_eq hk
  rw [hj] at hkj
  rw [Option.some.inj hkj]
  exact agrees_iff.1 hb x i k hi hk

theorem mentions_withMode (c : Constraint) : c.mentions = under (c.mode == .negated) (c.withMode .plain).mentions := by
  have hplain : ∀ ms, under (Mode.plain == .negated) ms = ms := fun _ => under_false
  cases c with
  | relation mode operator target inner =>
    rw [Constraint.withMode, mentions_relation, mentions_relation, hplain]
    rfl
  | all mode children =>
    rw [Constraint.withMode, Constraint.mentions, Constraint.mentions, hplain]
    rfl
  | any mode children =>
    rw [Constraint.withMode, Constraint.mentions, Constraint.mentions, hplain]
    rfl

/-- The mode of a constraint selects from what the constraint comes to without it. -/
theorem solve_eq_select (s : Scope) (index : Int) (b : Bindings) (c : Constraint) :
    c.solve s index b = c.mode.select b ((c.withMode .plain).solve s index b) := by
  have hmode : c.withMode c.mode = c := by cases c <;> rfl
  have h := solve_withMode s index b c.mode c
  rwa [hmode] at h

theorem namesFollowed_withMode (mode : Mode) (c : Constraint) : (c.withMode mode).namesFollowed = c.namesFollowed := by
  cases c with
  | relation _ _ _ inner => cases inner <;> rfl
  | all => rfl
  | any => rfl

/-- What is added under a negation can be added elsewhere. -/
theorem register_of_under {u : Bool} (h : names.register (under u ms) = .ok names') : names.register ms = .ok names' := by
  rw [← @under_false ms]
  exact register_under_eq_ok h Bool.noConfusion

/-- A mode, but that of an optional constraint, keeps searches hand in hand. Under a negation all names are bound before, so whatever the
other search comes to there agrees with the start, and one search comes to nothing exactly if the other one does. -/
theorem seeded_of_plain {c : Constraint} (hc : ∀ d ∈ c.nested, d.isOptionalOrAny = false) (hf : c.namesFollowed)
    (hregister : names.register c.mentions = .ok names') (hb : Seeded start b b') (hknown : Known names b')
    (h : List.Forall₂ (Seeded start) ((c.withMode .plain).solve s index b)
      (((c.withMode .plain).solve s index b').filter (·.agrees start))) :
    List.Forall₂ (Seeded start) (c.solve s index b) ((c.solve s index b').filter (·.agrees start)) := by
  rw [solve_eq_select s index b c, solve_eq_select s index b' c]
  cases hm : c.mode with
  | plain => exact h
  | optional => exact absurd hm (Constraint.mode_ne_optional hc)
  | negated =>
    rw [mentions_withMode, hm] at hregister
    obtain ⟨hext, hsize⟩ := extends_register_under hregister
    have hkeys := (hext.eq_of_size (hsize rfl)).1
    have hbound : ∀ x ∈ nodesOf (c.withMode .plain).mentions, b'.Binds (.node x) := by
      intro x hx
      have hadded := (keys_register hregister).2 x (by rwa [nodesOf_under])
      rw [hkeys] at hadded
      exact hknown x hadded
    have hall : ((c.withMode .plain).solve s index b').filter (·.agrees start) = (c.withMode .plain).solve s index b' := by
      refine List.filter_eq_self.2 fun b'' hb'' => ?_
      have hcaptures := captures_solve (by rw [namesFollowed_withMode]; exact hf) hb''
      exact agrees_of_captures hb.agrees (extends_solve hb'') (hcaptures.weaken fun _ hn => hn) hbound
    rw [hall] at h
    simp only [Mode.select, Order.isEmpty_eq_of_forall₂ h]
    split
    · rw [List.filter_cons_of_pos hb.agrees]
      exact .cons hb .nil
    · exact .nil

/-! ## Constraints -/

mutual
/-- Searches that go hand in hand do so after a conjunctive constraint. -/
theorem seeded_solve {c : Constraint} (hc : ∀ d ∈ c.nested, d.isOptionalOrAny = false) (hf : c.namesFollowed)
    {names names' : Names} (hregister : names.register c.mentions = .ok names') {index : Int} {b b' : Bindings}
    (hb : Seeded start b b') (hknown : Known names b') :
    List.Forall₂ (Seeded start) (c.solve s index b) ((c.solve s index b').filter (·.agrees start)) := by
  match c with
  | .relation mode operator target none =>
    refine seeded_of_plain hc hf hregister hb hknown ?_
    rw [Constraint.withMode, Constraint.solve, Constraint.solve]
    exact forall₂_flatMap_filter_same fun c _ => seeded_reach hb operator target s c
  | .relation mode operator target (some inner) =>
    obtain ⟨ho, hinner⟩ : operator.namesFollowed ∧ inner.namesFollowed := by simpa [Constraint.namesFollowed] using hf
    refine seeded_of_plain hc hf hregister hb hknown ?_
    rw [Constraint.nested, List.forall_mem_cons] at hc
    obtain ⟨names₁, hregister₁, hregister₂⟩ := register_append_eq_ok_iff.1 (register_of_under hregister)
    rw [Constraint.withMode, Constraint.solve, Constraint.solve]
    refine forall₂_flatMap_filter_same fun c hcandidate => ?_
    refine forall₂_flatMap_filter (seeded_reach hb operator target s c) ?_ ?_
    · intro b₁ b₁' hreach hb₁
      have hcaptures := captures_of_iff (binds_reach ho hcandidate hreach)
      exact seeded_solve hc.2 hinner hregister₂ hb₁ (hknown.after hregister₁ hcaptures fun _ hm => hm)
    · intro b₁' _ hstop b'' hb''
      exact not_agrees_of_extends (extends_solve hb'') hstop
  | .all mode children =>
    refine seeded_of_plain hc hf hregister hb hknown ?_
    rw [Constraint.nested, List.forall_mem_cons] at hc
    rw [Constraint.withMode, Constraint.solve, Constraint.solve]
    exact seeded_solveAll hc.2 hf (register_of_under hregister) hb hknown
  | .any mode children =>
    rw [Constraint.nested, List.forall_mem_cons] at hc
    cases hc.1

/-- So they do after conjunctive constraints, one after the other. -/
theorem seeded_solveAll {cs : List Constraint} (hcs : ∀ d ∈ nestedIn cs, d.isOptionalOrAny = false) (hf : nameFollowed cs)
    {names names' : Names} (hregister : names.register (mentioned cs) = .ok names') {index : Int} {b b' : Bindings}
    (hb : Seeded start b b') (hknown : Known names b') :
    List.Forall₂ (Seeded start) (solveAll s index b cs) ((solveAll s index b' cs).filter (·.agrees start)) := by
  match cs with
  | [] =>
    rw [solveAll, solveAll, List.filter_cons_of_pos hb.agrees]
    exact .cons hb .nil
  | c :: cs =>
    rw [nestedIn, List.forall_mem_append] at hcs
    obtain ⟨hc, hf⟩ : c.namesFollowed ∧ nameFollowed cs := by simpa [nameFollowed] using hf
    obtain ⟨names₁, hregister₁, hregister₂⟩ := register_append_eq_ok_iff.1 hregister
    rw [solveAll, solveAll]
    refine forall₂_flatMap_filter (seeded_solve hcs.1 hc hregister₁ hb hknown) ?_ ?_
    · intro b₁ b₁' hb₁' hb₁
      have hcaptures := captures_solve hc hb₁'
      exact seeded_solveAll hcs.2 hf hregister₂ hb₁ (hknown.after hregister₁ hcaptures fun _ => mem_certain hcs.1)
    · intro b₁' _ hstop b'' hb''
      exact not_agrees_of_extends (extends_solveAll hb'') hstop
end

/-! ## Parts -/

/-- So they do after a conjunctive part, and find it at the same tokens. -/
theorem seeded_part {p : Part} (hp : ∀ d ∈ nestedIn p.constraint.toList, d.isOptionalOrAny = false) (hf : p.namesFollowed)
    (hregister : names.register p.mentions = .ok names') (hb : Seeded start b b') (hknown : Known names b') :
    List.Forall₂ (fun q q' => q.1 = q'.1 ∧ Seeded start q.2 q'.2) (p.solve s b) ((p.solve s b').filter (·.2.agrees start)) := by
  obtain ⟨names₁, hplace, hconstraint⟩ := register_append_eq_ok_iff.1 hregister
  refine forall₂_flatMap_filter_same fun index _ => ?_
  have hat : List.Forall₂ (Seeded start) (p.solveAt s b index) ((p.solveAt s b' index).filter (·.agrees start)) := by
    unfold Part.solveAt
    simp only [solveOption_eq_solveAll]
    refine forall₂_flatMap_filter (seeded_fill hb p.place s index) ?_ ?_
    · intro b₁ b₁' hfill hb₁
      have hcaptures := captures_of_iff (binds_fill (Option.mem_toList.1 hfill))
      exact seeded_solveAll hp (nameFollowed_toList hf) hconstraint hb₁ (hknown.after hplace hcaptures fun _ hm => hm)
    · intro b₁' _ hstop b'' hb''
      exact not_agrees_of_extends (extends_solveAll hb'') hstop
  rw [List.filter_map, List.forall₂_map_left_iff, List.forall₂_map_right_iff]
  exact hat.imp fun _ _ h => ⟨rfl, h⟩

/-- So they do after conjunctive parts, one after the other. -/
theorem seeded_solveParts {ps : List Part} (hps : ∀ p ∈ ps, ∀ d ∈ nestedIn p.constraint.toList, d.isOptionalOrAny = false)
    (hf : ps.all Part.namesFollowed) (hregister : names.register (ps.flatMap Part.mentions) = .ok names') (hb : Seeded start b b')
    (hknown : Known names b') :
    List.Forall₂ (Seeded start) (solveParts s b ps) ((solveParts s b' ps).filter (·.agrees start)) := by
  induction ps generalizing names b b' with
  | nil =>
    rw [solveParts, solveParts, List.filter_cons_of_pos hb.agrees]
    exact .cons hb .nil
  | cons p ps ih =>
    rw [List.forall_mem_cons] at hps
    obtain ⟨hp, hf⟩ : p.namesFollowed ∧ ps.all Part.namesFollowed := by simpa using hf
    obtain ⟨names₁, hregister₁, hregister₂⟩ := register_append_eq_ok_iff.1 hregister
    rw [solveParts, solveParts]
    refine forall₂_flatMap_filter (seeded_part hps.1 hp hregister₁ hb hknown) ?_ ?_
    · rintro q q' hq' ⟨-, hq⟩
      exact ih hps.2 hf hregister₂ hq (hknown.after hregister₁ (captures_part hp hq') fun _ => mem_certain_part hps.1)
    · intro q' _ hstop b'' hb''
      exact not_agrees_of_extends (extends_solveParts hb'') hstop

/-! ## Matches -/

/-- The matches from some start are those matches from nothing that agree with it. -/
theorem seeded_all {m m₀ : Matcher} {names : Names} (hpattern : m.pattern = m₀.pattern) (hscope : m.scope = m₀.scope)
    (hinitial : m₀.initial = []) (hp : m₀.pattern.isConjunctive) (hf : m₀.pattern.namesFollowed)
    (hregister : ({} : Names).register m₀.pattern.mentions = .ok names) :
    List.Forall₂ (fun mt mt₀ => mt.root = mt₀.root ∧ Seeded m.initial mt.bindings mt₀.bindings) m.all
      (m₀.all.filter (·.bindings.agrees m.initial)) := by
  have hb : Seeded m.initial { nodes := m.initial } { nodes := [] } := ⟨fun x => rfl, rfl, by simp [Bindings.agrees]⟩
  unfold Pattern.mentions at hregister
  unfold Pattern.namesFollowed at hf
  have hconstraints := forall_nestedIn_of_conjunctive hp
  unfold Matcher.all
  rw [hpattern, hscope, hinitial]
  cases hparts : m₀.pattern.parts with
  | nil => exact .nil
  | cons p ps =>
    rw [hparts] at hf hregister hconstraints
    rw [List.forall_mem_cons] at hconstraints
    obtain ⟨hp, hf⟩ : p.namesFollowed ∧ ps.all Part.namesFollowed := by simpa using hf
    obtain ⟨names₁, hregister₁, hregister₂⟩ := register_append_eq_ok_iff.1 hregister
    have hknown : Known {} { nodes := [] } := by simp [Known, Pairs.keys]
    refine forall₂_flatMap_filter (seeded_part hconstraints.1 hp hregister₁ hb hknown) ?_ ?_
    · rintro q q' hq' ⟨hroot, hq⟩
      have hknown₁ := hknown.after hregister₁ (captures_part hp hq') fun _ => mem_certain_part hconstraints.1
      rw [List.filter_map, List.forall₂_map_left_iff, List.forall₂_map_right_iff]
      exact (seeded_solveParts hconstraints.2 hf hregister₂ hq hknown₁).imp fun _ _ h => ⟨hroot, h⟩
    · intro q' _ hstop found hfound
      obtain ⟨b'', hb'', rfl⟩ := List.mem_map.1 hfound
      exact not_agrees_of_extends (extends_solveParts hb'') hstop

end Pattern

open Pattern

/-- The matches that a search finds from given bindings are, in the same order and with the same edges, those that it finds from nothing
and in which all names that are given are bound to what is given. -/
theorem Matcher.findAll_seeded {options : PatternOptions} {text : String} {p : Pattern} (hp : ofText options text = .ok p)
    (hconjunctive : p.isConjunctive) {g : Graph} {initial : List (String × Int)} {o : Matcher.Overrides} {m : Matcher}
    (hm : Matcher.ofPattern p g initial o = .ok m) (sink : Sink) :
    ∃ m₀, Matcher.ofPattern p g [] o = .ok m₀ ∧
      List.Forall₂
        (fun mt mt₀ => mt.root = mt₀.root ∧ (∀ x, mt.node? x = mt₀.node? x) ∧ mt.bindings.edges = mt₀.bindings.edges)
        (m.findAll.run sink).1
        ((m₀.findAll.run sink).1.filter fun mt => (Pairs.keys initial).all fun x => mt.node? x == initial.lookup x) := by
  obtain ⟨m₀, hm₀, rfl, hscope, hstart⟩ : ∃ m₀, Matcher.ofPattern p g [] o = .ok m₀ ∧ m₀.pattern = p ∧ m₀.scope = m.scope ∧
      m₀.initial = [] := by
    unfold Matcher.ofPattern at hm
    split at hm
    · cases hm
    · cases hm
      exact ⟨_, rfl, rfl, rfl, rfl⟩
  obtain ⟨hpattern, rfl, hknown⟩ := mem_nodeNames_of_ofPattern hm
  obtain ⟨names, hregister, -⟩ := register_of_ofText hp
  have hfollowed := namesFollowed_ofText hp
  -- Every match from nothing binds all names of tokens, so it either agrees with what is given on all names, or differs on one.
  have hbound : ∀ mt ∈ m₀.all, ∀ x ∈ m₀.pattern.nodeNames, ∃ i, mt.node? x = some i := by
    intro mt hmt x hx
    have hsure := (captures_all hfollowed hmt).sure _ (mem_namesOf_node.2 ((certain_of_conjunctive hp hconjunctive).1 x hx))
    exact Option.isSome_iff_exists.1 (Pairs.isSome_lookup_iff.2 (binds_node.1 hsure))
  have hfilter : m₀.all.filter (fun mt => (Pairs.keys m.initial).all fun x => mt.node? x == m.initial.lookup x) =
      m₀.all.filter (·.bindings.agrees m.initial) := by
    refine List.filter_congr fun mt hmt => ?_
    unfold Bindings.agrees
    rw [Bool.eq_iff_iff, List.all_eq_true, List.all_eq_true]
    refine forall₂_congr fun x hx => ?_
    obtain ⟨i, hi⟩ := hbound mt hmt x (hknown x hx)
    have hi' : mt.bindings.nodes.lookup x = some i := hi
    rw [hi, hi', Option.all_some, beq_iff_eq, beq_iff_eq, eq_comm]
  refine ⟨m₀, hm₀, ?_⟩
  change List.Forall₂ _ m.all (m₀.all.filter _)
  rw [hfilter]
  have hall := seeded_all hpattern hscope.symm hstart hconjunctive hfollowed hregister
  have hall := (List.forall₂_and_left _ _).2 ⟨fun mt hmt => hbound mt (List.mem_of_mem_filter hmt), List.Forall₂.flip hall⟩
  refine List.Forall₂.flip (hall.imp ?_)
  rintro mt₀ mt ⟨hmt₀, hroot, hseeded⟩
  refine ⟨hroot, fun x => (hseeded.nodes x).trans ?_, hseeded.edges⟩
  change (mt₀.node? x).or _ = mt₀.node? x
  by_cases hx : x ∈ Pairs.keys m.initial
  · obtain ⟨i, hi⟩ := hmt₀ x (hknown x hx)
    rw [hi, Option.some_or]
  · rw [Pairs.lookup_eq_none_iff_notMem.2 hx, Option.or_none]

/-- So it is with a negation on the name that is given. -/
theorem Matcher.findAll_seeded_negation :
    let toSecond : Edge := { governor := 1, dependent := 2, relation := "nsubj" }
    let toThird : Edge := { governor := 1, dependent := 3, relation := "obj" }
    let graph : Graph :=
      { tokens := [(1, { index := 1 }), (2, { index := 2 }), (3, { index := 3 })], arcs := [⟨0, toSecond⟩, ⟨1, toThird⟩], fresh := 2 }
    let start : List (String × Int) := [("b", 3)]
    let second : Match := { root := 1, bindings := { nodes := [("a", 1), ("b", 2)], edges := [("e", toSecond)] } }
    let third : Match := { root := 1, bindings := { nodes := [("a", 1), ("b", 3)], edges := [("e", toThird)] } }
    let given : Match := { root := 1, bindings := { nodes := [("b", 3), ("a", 1)], edges := [("e", toThird)] } }
    ∃ p m m₀, ofText {} "\x7b\x7d=a >=e \x7b\x7d=b !< \x7b\x7d=b" = .ok p ∧ p.isConjunctive ∧
      Matcher.ofPattern p graph start {} = .ok m ∧ (m.findAll.run {}).1 = [given] ∧
        Matcher.ofPattern p graph [] {} = .ok m₀ ∧ (m₀.findAll.run {}).1 = [second, third] ∧
          List.Forall₂
            (fun mt mt₀ => mt.root = mt₀.root ∧ (∀ x, mt.node? x = mt₀.node? x) ∧ mt.bindings.edges = mt₀.bindings.edges)
            (m.findAll.run {}).1
            ((m₀.findAll.run {}).1.filter fun mt => (Pairs.keys start).all fun x => mt.node? x == start.lookup x) := by
  intro toSecond toThird graph start second third given
  obtain ⟨p, hp, hfacts⟩ := exists_ok_of_map_toOption (x := ofText {} "\x7b\x7d=a >=e \x7b\x7d=b !< \x7b\x7d=b")
    (g := fun p => (p.isConjunctive, (Matcher.ofPattern p graph start {}).toOption.map (·.all),
      (Matcher.ofPattern p graph [] {}).toOption.map (·.all)))
    (b := (true, some [given], some [second, third])) (by decide +kernel)
  simp only [Prod.mk.injEq] at hfacts
  obtain ⟨hconjunctive, hgiven, hnothing⟩ := hfacts
  obtain ⟨m, hm, hall⟩ := exists_ok_of_map_toOption hgiven
  obtain ⟨m₀, hm₀, hall₀⟩ := exists_ok_of_map_toOption hnothing
  obtain ⟨m₁, hm₁, hseeded⟩ := Matcher.findAll_seeded hp hconjunctive hm {}
  rw [hm₀] at hm₁
  cases hm₁
  exact ⟨p, m, m₀, hp, hconjunctive, hm, hall, hm₀, hall₀, hseeded⟩

end Treebank

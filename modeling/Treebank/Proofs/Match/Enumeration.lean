import Treebank.Proofs.Match.Candidate
import Treebank.Proofs.Match.Search

/-!
# Searches enumerate assignments

A positive pattern in which no edge name occurs twice has exactly the matches of the assignments that it admits, each once, in the
lexicographic order of the choices (`findAll_enumerates`).
-/

namespace Treebank

namespace Pattern

open Scope

variable {s : Scope} {initial : List (String × Int)} {os : List Occurrence} {o : Occurrence} {a : Assignment} {c : Candidate}

/-! ## One more place -/

/-- Whether a choice fits the description of a place. -/
def Fits (s : Scope) (o : Occurrence) (c : Candidate) : Prop :=
  ∃ t, s.graph.token? c.1 = some t ∧ o.place.description.accepts s.ignoreCase (s.graph.isRoot c.1) t

theorem namedTokens_concat (h : a.length = os.length) :
    namedTokens initial (os ++ [o]) (a ++ [c]) =
      namedTokens initial os a ++ (o.place.name.map fun name => (name, c.1)).toList := by
  unfold namedTokens
  rw [List.zip_append h.symm, List.filterMap_append, List.append_assoc]
  cases hn : o.place.name <;> simp [hn]

theorem namedEdges_concat (h : a.length = os.length) :
    namedEdges (os ++ [o]) (a ++ [c]) =
      namedEdges os a ++ (o.edgeName.bind fun name => c.2.map fun e => (name, e)).toList := by
  unfold namedEdges
  rw [List.zip_append h.symm, List.filterMap_append]
  cases hn : o.edgeName with
  | none => simp [hn]
  | some name => cases hc : c.2 <;> simp [hn, hc]

/-- The names that an assignment binds to edges are edge names of its places. -/
theorem mem_edgeNames_of_namedEdges {p : String × Edge} (hp : p ∈ namedEdges os a) : p.1 ∈ os.filterMap (·.edgeName) := by
  obtain ⟨⟨o, c⟩, hm, he⟩ := List.mem_filterMap.1 hp
  obtain ⟨name, hn, he⟩ := Option.bind_eq_some_iff.1 he
  obtain ⟨e, -, rfl⟩ := Option.map_eq_some_iff.1 he
  exact List.mem_filterMap.2 ⟨o, (List.of_mem_zip hm).1, hn⟩

/-- Binding the edge to one more place, whose name is new. -/
theorem bindEdge_eq (h : a.length = os.length) (hd : ((os ++ [o]).filterMap (·.edgeName)).Nodup) :
    (bindingsOf initial os a).bindEdge o.edgeName c.2 =
      some { bindingsOf initial os a with edges := namedEdges (os ++ [o]) (a ++ [c]) } := by
  rw [namedEdges_concat h]
  unfold Bindings.bindEdge
  cases hn : o.edgeName with
  | none => simp [bindingsOf]
  | some name =>
    cases c.2 with
    | none => simp [bindingsOf]
    | some e =>
      have : (bindingsOf initial os a).edges.lookup name = none := by
        refine Pairs.lookup_eq_none_iff_notMem.2 fun hm => ?_
        obtain ⟨p, hp, rfl⟩ := List.mem_map.1 hm
        rw [List.filterMap_append, List.nodup_append] at hd
        exact hd.2.2 p.1 (mem_edgeNames_of_namedEdges hp) p.1 (by simp [hn]) rfl
      simp only [this]
      rfl

/-- Binding the name of one more place succeeds exactly if the name has no other token. -/
theorem bindNode_eq_some_iff (h : a.length = os.length) (hf : Pairs.Functional (namedTokens initial os a))
    (edges : List (String × Edge)) {b : Bindings} :
    { bindingsOf initial os a with edges := edges }.bindNode o.place.name c.1 = some b ↔
      Pairs.Functional (namedTokens initial (os ++ [o]) (a ++ [c])) ∧
        b = { bindingsOf initial (os ++ [o]) (a ++ [c]) with edges := edges } := by
  unfold Bindings.bindNode bindingsOf
  rw [namedTokens_concat h]
  cases o.place.name with
  | none => simp [hf, eq_comm]
  | some name =>
    simp only [Option.map_some, Option.toList_some]
    rw [Pairs.functional_concat_iff hf, Pairs.eraseDups_concat]
    cases hl : (namedTokens initial os a).eraseDups.lookup name with
    | none =>
      have hno : ∀ i, (name, i) ∉ namedTokens initial os a := fun i hi => by
        rw [(Pairs.lookup_eraseDups_eq_some_iff hf).2 hi] at hl
        cases hl
      simp [hno, eq_comm]
    | some i =>
      have hi := (Pairs.lookup_eraseDups_eq_some_iff hf).1 hl
      have hone : (∀ j, (name, j) ∈ namedTokens initial os a → j = c.1) ↔ i = c.1 :=
        ⟨fun h => h i hi, fun e j hj => (hf _ hj _ hi rfl).trans e⟩
      rw [hone]
      by_cases e : i = c.1
      · subst e
        simp [hi, eq_comm]
      · simp [e]

/-- Binding the names of one more place succeeds exactly if the token fits and no name gets a second token. -/
theorem bind_eq_some_iff (h : a.length = os.length) (hf : Pairs.Functional (namedTokens initial os a))
    (hd : ((os ++ [o]).filterMap (·.edgeName)).Nodup) {b : Bindings} :
    o.bind s (bindingsOf initial os a) c = some b ↔
      Fits s o c ∧ Pairs.Functional (namedTokens initial (os ++ [o]) (a ++ [c])) ∧
        b = bindingsOf initial (os ++ [o]) (a ++ [c]) := by
  unfold Occurrence.bind Fits
  rw [bindEdge_eq h hd, Option.bind_some, Place.fill]
  cases s.graph.token? c.1 with
  | none => simp
  | some t =>
    by_cases ht : o.place.description.accepts s.ignoreCase (s.graph.isRoot c.1) t
    · simp only [ht, if_true, bindNode_eq_some_iff h hf]
      simp [bindingsOf, ht]
    · simp [ht]

/-! ## Assignments that are admitted -/

/-- What is admitted for some places is admitted for the first ones. -/
theorem Admits.of_append {os' : List Occurrence} {a' : Assignment} (h : a.length = os.length)
    (ha : Admits s initial (os ++ os') (a ++ a')) : Admits s initial os a where
  length := h
  chosen := by
    intro k o c ho hc
    have hk := (List.getElem?_eq_some_iff.1 hc).1
    have := ha.chosen k o c (by rwa [List.getElem?_append_left (h ▸ hk)]) (by rwa [List.getElem?_append_left hk])
    rwa [List.take_append_of_le_length (by omega)] at this
  fits := by
    intro p hp
    refine ha.fits p ?_
    rw [List.zip_append h.symm]
    exact List.mem_append_left _ hp
  shared := by
    have hsub : namedTokens initial os a ⊆ namedTokens initial (os ++ os') (a ++ a') := by
      unfold namedTokens
      rw [List.zip_append h.symm, List.filterMap_append, ← List.append_assoc]
      exact List.subset_append_left _ _
    exact fun p hp q hq => ha.shared p (hsub hp) q (hsub hq)

/-- An assignment to one more place. -/
theorem admits_concat_iff (h : a.length = os.length) :
    Admits s initial (os ++ [o]) (a ++ [c]) ↔
      Admits s initial os a ∧ c ∈ o.choices s a ∧ Fits s o c ∧
        Pairs.Functional (namedTokens initial (os ++ [o]) (a ++ [c])) := by
  constructor
  · intro ha
    refine ⟨ha.of_append h, ?_, ha.fits (o, c) ?_, ha.shared⟩
    · have := ha.chosen a.length o c (by simp [h]) (by simp)
      rwa [List.take_left] at this
    · rw [List.zip_append h.symm]
      simp
  · rintro ⟨ha, hc, hfit, hf⟩
    refine ⟨by simp [h], fun k o' c' ho hc' => ?_, fun p hp => ?_, hf⟩
    · rcases Nat.lt_or_ge k a.length with hk | hk
      · rw [List.getElem?_append_left hk] at hc'
        rw [List.getElem?_append_left (h ▸ hk)] at ho
        rw [List.take_append_of_le_length (by omega)]
        exact ha.chosen k o' c' ho hc'
      · obtain rfl : k = a.length := by
          have := (List.getElem?_eq_some_iff.1 hc').1
          rw [List.length_append, List.length_singleton] at this
          omega
        rw [List.take_left]
        obtain rfl : c = c' := by simpa using hc'
        obtain rfl : o = o' := by simpa [h] using ho
        exact hc
    · rw [List.zip_append h.symm] at hp
      rcases List.mem_append.1 hp with hp | hp
      · exact ha.fits p hp
      · obtain rfl : p = (o, c) := by simpa using hp
        exact hfit

/-- The empty assignment to no place. -/
theorem admits_nil (s : Scope) (hi : (initial.map (·.1)).Nodup) : Admits s initial [] [] where
  length := rfl
  chosen := by simp
  fits := by simp
  shared := by simpa [namedTokens] using Pairs.functional_of_nodup hi

/-- A list without repetition has nothing to leave out. -/
theorem eraseDups_eq_self {l : List (String × Int)} (h : l.Nodup) : l.eraseDups = l := by
  induction l with
  | nil => rfl
  | cons p l ih =>
    obtain ⟨hp, hl⟩ := List.nodup_cons.1 h
    have : l.filter (fun q => !q == p) = l := List.filter_eq_self.2 fun q hq => by
      rw [Bool.not_eq_true', beq_eq_false_iff_ne]
      rintro rfl
      exact hp hq
    rw [List.eraseDups_cons, this, ih hl]

/-! ## What a search comes to -/

/-- A search that goes on from an assignment comes to the admitted assignments that go on from it, with their bindings. -/
theorem mem_search_iff {os' : List Occurrence} (ha : Admits s initial os a)
    (hd : ((os ++ os').filterMap (·.edgeName)).Nodup) {a' : Assignment} {b' : Bindings} :
    (a', b') ∈ search s os' a (bindingsOf initial os a) ↔
      Admits s initial (os ++ os') a' ∧ a <+: a' ∧ b' = bindingsOf initial (os ++ os') a' := by
  induction os' generalizing os a with
  | nil =>
    rw [search, List.mem_singleton, List.append_nil]
    constructor
    · rintro ⟨⟩
      exact ⟨ha, List.prefix_refl _, rfl⟩
    · rintro ⟨ha', hp, rfl⟩
      rw [hp.eq_of_length (ha.length.trans ha'.length.symm)]
  | cons o os' ih =>
    have hsplit : os ++ o :: os' = os ++ [o] ++ os' := by simp
    rw [hsplit] at hd ⊢
    have hd' : ((os ++ [o]).filterMap (·.edgeName)).Nodup := by
      rw [List.filterMap_append] at hd
      exact (List.nodup_append.1 hd).1
    simp only [search, List.mem_flatMap, Option.mem_toList, bind_eq_some_iff ha.length ha.shared hd']
    constructor
    · rintro ⟨c, hc, b, ⟨hfit, hf, rfl⟩, hm⟩
      have hstep := (admits_concat_iff ha.length).2 ⟨ha, hc, hfit, hf⟩
      obtain ⟨ha', hp, hb⟩ := (ih hstep hd).1 hm
      exact ⟨ha', (List.prefix_append a [c]).trans hp, hb⟩
    · rintro ⟨ha', ⟨rest, rfl⟩, hb⟩
      have hl := ha'.length
      cases rest with
      | nil =>
        simp only [List.append_nil, List.length_append, List.length_singleton, ha.length] at hl
        omega
      | cons c rest =>
        have hwhole : Admits s initial (os ++ [o] ++ os') (a ++ [c] ++ rest) := by simpa using ha'
        have hstep := hwhole.of_append (by simp [ha.length])
        obtain ⟨-, hc, hfit, hf⟩ := (admits_concat_iff ha.length).1 hstep
        refine ⟨c, hc, _, ⟨hfit, hf, rfl⟩, (ih hstep hd).2 ⟨ha', ?_, hb⟩⟩
        exact ⟨rest, by simp⟩

/-! ## The order of choices -/

/-- No choice is listed twice. -/
theorem nodup_choices (h : s.graph.indices.Nodup) (o : Occurrence) (a : Assignment) : (o.choices s a).Nodup := by
  unfold Occurrence.choices
  split
  · exact h.map fun i j hij => (Prod.mk.inj hij).1
  · split
    · exact nodup_candidates h _ _
    · exact List.nodup_nil

/-- In a list without repetition, items come in the order of their places. -/
theorem pairwise_idxOf_lt {l : List Candidate} (h : l.Nodup) : l.Pairwise fun c c' => l.idxOf c < l.idxOf c' := by
  rw [List.pairwise_iff_getElem]
  intro i j hi hj hij
  rwa [h.idxOf_getElem, h.idxOf_getElem]

/-- A search comes to assignments in lexicographic order. -/
theorem pairwise_search (h : s.graph.indices.Nodup) {os' : List Occurrence} (hl : a.length = os.length) (b : Bindings) :
    ((search s os' a b).map (·.1)).Pairwise (Precedes s (os ++ os')) := by
  induction os' generalizing os a b with
  | nil => simp [search]
  | cons o os' ih =>
    have hsplit : os ++ o :: os' = os ++ [o] ++ os' := by simp
    simp only [search, List.map_flatMap]
    rw [List.pairwise_flatMap]
    constructor
    · intro c _
      cases o.bind s b c with
      | none => exact List.Pairwise.nil
      | some b' =>
        rw [Option.toList_some, List.flatMap_singleton, hsplit]
        exact ih (by simp [hl]) b'
    · have hfrom : ∀ c x, x ∈ (o.bind s b c).toList.flatMap (fun b' => (search s os' (a ++ [c]) b').map (·.1)) →
          ∃ rest, x = a ++ c :: rest := by
        intro c x hx
        obtain ⟨b', -, hx⟩ := List.mem_flatMap.1 hx
        obtain ⟨p, hp, rfl⟩ := List.mem_map.1 hx
        obtain ⟨rest, -, he⟩ := eq_append_of_mem_search hp
        exact ⟨rest, by simp [he]⟩
      refine (pairwise_idxOf_lt (nodup_choices h o a)).imp fun {c c'} hcc x hx y hy => ?_
      obtain ⟨rest, rfl⟩ := hfrom c x hx
      obtain ⟨rest', rfl⟩ := hfrom c' y hy
      refine ⟨a.length, o, c, c', by simp [hl], by simp, by simp, ?_, ?_⟩
      · rw [List.take_left, List.take_left]
      · rwa [List.take_left]

/-- No assignment comes before itself. -/
theorem Precedes.irrefl (a : Assignment) : ¬ Precedes s os a a := by
  rintro ⟨k, o, c, c', -, hc, hc', -, hlt⟩
  rw [hc] at hc'
  cases hc'
  exact Nat.lt_irrefl _ hlt

end Pattern

/-- The matches of a positive pattern in which no edge name occurs twice are those of the assignments that it admits. Each is found
once, and they are found in the lexicographic order of the choices, place by place. A pattern that was read has a part; indices, and
names that are bound from the start, are keys. -/
theorem Matcher.findAll_enumerates {m : Matcher} (hparts : m.pattern.parts ≠ []) (hpositive : m.pattern.isPositive)
    (hedges : (m.pattern.occurrences.filterMap (·.edgeName)).Nodup) (hgraph : m.scope.graph.indices.Nodup)
    (hinitial : (m.initial.map (·.1)).Nodup) (sink : Sink) :
    ∃ as : List Pattern.Assignment,
      (m.findAll.run sink).1 = as.map (Pattern.matchOf m.initial m.pattern.occurrences) ∧
        (∀ a, a ∈ as ↔ Pattern.Admits m.scope m.initial m.pattern.occurrences a) ∧
        as.Nodup ∧ as.Pairwise (Pattern.Precedes m.scope m.pattern.occurrences) := by
  have hstart : ({ nodes := m.initial } : Pattern.Bindings) = Pattern.bindingsOf m.initial [] [] := by
    unfold Pattern.bindingsOf Pattern.namedTokens
    simp [Pattern.eraseDups_eq_self (List.Nodup.of_map _ hinitial), Pattern.namedEdges]
  have hmem : ∀ a b, (a, b) ∈ Pattern.search m.scope m.pattern.occurrences [] (Pattern.bindingsOf m.initial [] []) ↔
      Pattern.Admits m.scope m.initial m.pattern.occurrences a ∧
        b = Pattern.bindingsOf m.initial m.pattern.occurrences a := by
    intro a b
    refine (Pattern.mem_search_iff (Pattern.admits_nil m.scope hinitial) hedges).trans ?_
    rw [List.nil_append, and_iff_right (List.nil_prefix : [] <+: a)]
    rfl
  have horder : ((Pattern.search m.scope m.pattern.occurrences [] (Pattern.bindingsOf m.initial [] [])).map (·.1)).Pairwise
      (Pattern.Precedes m.scope ([] ++ m.pattern.occurrences)) := Pattern.pairwise_search hgraph rfl _
  refine ⟨_, ?_, fun a => ?_, horder.imp ?_, horder⟩
  · change m.all = _
    rw [Matcher.all_eq_search hpositive hparts, hstart, List.map_map]
    refine List.map_congr_left ?_
    rintro ⟨a, b⟩ hab
    rw [(hmem a b).1 hab |>.2]
    rfl
  · rw [List.mem_map]
    constructor
    · rintro ⟨⟨a, b⟩, hab, rfl⟩
      exact ((hmem a b).1 hab).1
    · intro ha
      exact ⟨(a, _), (hmem a _).2 ⟨ha, rfl⟩, rfl⟩
  · rintro a a' h rfl
    exact Pattern.Precedes.irrefl a h

/-- So it is for two parts that share a name, in a graph of two tokens and an edge. -/
theorem findAll_enumerates_two_parts :
    let child : Pattern.Constraint := .relation .plain { kind := .child } { description := {}, name := some "b" } none
    let parent : Pattern.Constraint := .relation .plain { kind := .parent, edgeName := some "e" } { description := {} } none
    let pattern : Pattern :=
      { source := "\x7b\x7d=a > \x7b\x7d=b : \x7b\x7d=b <=e \x7b\x7d"
        parts := [⟨{ description := {}, name := some "a" }, child⟩, ⟨{ description := {}, name := some "b" }, parent⟩]
        nodeNames := ["a", "b"]
        edgeNames := ["e"]
        options := {} }
    let graph : Graph :=
      { tokens := [(1, { index := 1 }), (2, { index := 2 })]
        arcs := [⟨0, { governor := 1, dependent := 2, relation := "obj" }⟩]
        fresh := 1 }
    let m : Matcher := { pattern := pattern, scope := { graph := graph } }
    (m.findAll.run {}).1.length = 1 ∧
      ∃ as : List Pattern.Assignment,
        (m.findAll.run {}).1 = as.map (Pattern.matchOf m.initial m.pattern.occurrences) ∧
          (∀ a, a ∈ as ↔ Pattern.Admits m.scope m.initial m.pattern.occurrences a) ∧
          as.Nodup ∧ as.Pairwise (Pattern.Precedes m.scope m.pattern.occurrences) :=
  ⟨by decide, Matcher.findAll_enumerates (by simp) (by decide) (by decide) (by decide) (by decide) {}⟩

end Treebank

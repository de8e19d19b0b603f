import Treebank.Match.Candidate
import Treebank.Proofs.Order
import Mathlib.Data.List.Nodup

/-!
# Laws of candidates

No operator lists a candidate twice, in a graph in which every index is listed once.
-/

namespace Treebank

/-- Edges of which each differs from the others in its end or its relation stand once each. -/
theorem Edge.nodup_firstOfEach (far : Edge → Int) (es : List Edge) : (firstOfEach far es).Nodup := by
  induction es with
  | nil => exact List.nodup_nil
  | cons e es ih =>
    refine List.nodup_cons.2 ⟨fun hm => ?_, ih.filter _⟩
    have := (List.mem_filter.1 hm).2
    simp at this

/-- Each edge has one with its end and its relation among those that are kept. -/
theorem Edge.exists_mem_firstOfEach (far : Edge → Int) {es : List Edge} {e : Edge} (he : e ∈ es) :
    ∃ f ∈ firstOfEach far es, far f = far e ∧ f.relation = e.relation := by
  induction es with
  | nil => cases he
  | cons f es ih =>
    rw [firstOfEach]
    by_cases hsame : far f = far e ∧ f.relation = e.relation
    · exact ⟨f, List.mem_cons_self .., hsame⟩
    · have hrest : e ∈ es := (List.mem_cons.1 he).resolve_left fun h => hsame (by simp [h])
      obtain ⟨k, hk, hfar, hrelation⟩ := ih hrest
      refine ⟨k, List.mem_cons_of_mem f (List.mem_filter.2 ⟨hk, ?_⟩), hfar, hrelation⟩
      simp only [hfar, hrelation, Bool.not_eq_true', Bool.and_eq_false_iff, beq_eq_false_iff_ne]
      grind

namespace Scope

/-- A list of edges that lead to tokens, each to another one, and to none of some tokens. -/
def Reaches (far : Edge → Int) (avoided : List Int) (es : List Edge) : Prop :=
  (es.map far).Nodup ∧ ∀ e ∈ es, far e ∉ avoided

/-- Edges that lead elsewhere come after others. -/
theorem Reaches.append {far : Edge → Int} {avoided : List Int} {es fs : List Edge} (he : Reaches far avoided es)
    (hf : Reaches far (es.map far ++ avoided) fs) : Reaches far avoided (es ++ fs) := by
  refine ⟨?_, fun e hm => ?_⟩
  · rw [List.map_append]
    refine he.1.append hf.1 fun i hi hi' => ?_
    obtain ⟨f, hf', rfl⟩ := List.mem_map.1 hi'
    exact hf.2 f hf' (List.mem_append_left _ hi)
  · rcases List.mem_append.1 hm with hm | hm
    · exact he.2 e hm
    · exact fun ha => hf.2 e hm (List.mem_append_right _ ha)

theorem reaches_nil (far : Edge → Int) (avoided : List Int) : Reaches far avoided [] := ⟨List.nodup_nil, by simp⟩

theorem reaches_firstReaching (far : Edge → Int) (accepts : Edge → Bool) (matched : List Int) (es : List Edge) :
    Reaches far matched (firstReaching far accepts matched es) := by
  induction es generalizing matched with
  | nil => exact reaches_nil far matched
  | cons e es ih =>
    simp only [firstReaching]
    split
    · rename_i h
      have hs : Reaches far matched [e] := by
        simp only [Bool.and_eq_true, Bool.not_eq_true', List.contains_eq_mem, decide_eq_false_iff_not] at h
        exact ⟨List.nodup_singleton _, by simpa using h.2⟩
      exact hs.append (ih (far e :: matched))
    · exact ih matched

/-- Accepted edges lead to all tokens that were not matched before and to which some accepted edge leads. -/
theorem mem_map_firstReaching {far : Edge → Int} {accepts : Edge → Bool} {matched : List Int} {es : List Edge} {v : Int} :
    v ∈ (firstReaching far accepts matched es).map far ↔ v ∉ matched ∧ ∃ e ∈ es, accepts e ∧ far e = v := by
  induction es generalizing matched with
  | nil => simp [firstReaching]
  | cons e es ih =>
    simp only [firstReaching]
    split
    · rename_i h
      simp only [Bool.and_eq_true, Bool.not_eq_true', List.contains_eq_mem, decide_eq_false_iff_not] at h
      rw [List.map_cons, List.mem_cons, ih, List.mem_cons, not_or, List.exists_mem_cons_iff]
      grind
    · rename_i h
      simp only [Bool.and_eq_true, Bool.not_eq_true', List.contains_eq_mem, decide_eq_false_iff_not] at h
      rw [ih, List.exists_mem_cons_iff]
      grind

theorem accepts_of_mem_firstReaching {far : Edge → Int} {accepts : Edge → Bool} {matched : List Int} {es : List Edge} {e : Edge}
    (he : e ∈ firstReaching far accepts matched es) : accepts e := by
  induction es generalizing matched with
  | nil => cases he
  | cons f es ih =>
    rw [firstReaching] at he
    split at he
    · rename_i h
      rcases List.mem_cons.1 he with rfl | he
      · exact (Bool.and_eq_true_iff.1 h).1
      · exact ih he
    · exact ih he

/-- Of the edges to a token the first one is kept. -/
theorem mem_firstToEach {far : Edge → Int} {es : List Edge} {e : Edge} :
    e ∈ firstToEach far es ↔ es.find? (far · == far e) = some e := by
  induction es with
  | nil => simp [firstToEach]
  | cons f es ih =>
    rw [firstToEach, List.mem_cons, List.mem_filter, ih, List.find?_cons]
    by_cases hf : far f = far e
    · simp [hf, eq_comm]
    · have hother : (far f == far e) = false := beq_eq_false_iff_ne.2 hf
      have hne : e ≠ f := fun h => hf (h ▸ rfl)
      simp [hother, hne, Ne.symm hf]

/-- Keeping the first edge to each token keeps the tokens. -/
theorem mem_map_firstToEach {far : Edge → Int} {es : List Edge} {v : Int} : v ∈ (firstToEach far es).map far ↔ v ∈ es.map far := by
  simp only [List.mem_map, mem_firstToEach]
  constructor
  · rintro ⟨e, he, hv⟩
    exact ⟨e, List.mem_of_find?_eq_some he, hv⟩
  · rintro ⟨e, he, rfl⟩
    have hsome : (es.find? (far · == far e)).isSome := List.find?_isSome.2 ⟨e, he, beq_self_eq_true (far e)⟩
    obtain ⟨f, hf⟩ := Option.isSome_iff_exists.1 hsome
    have hfar : far f = far e := eq_of_beq (List.find?_some (p := (far · == far e)) hf)
    exact ⟨f, by rw [hfar, hf], hfar⟩

/-- A search of any depth leads to each token once. -/
theorem reaches_descend (d : Direction) (next : Int → List Edge) (accepts : Edge → Bool)
    (unsearched matched stack : List Int) : Reaches d.far matched (descend d next accepts unsearched matched stack) := by
  induction unsearched, matched, stack using descend.induct d next accepts with
  | case1 unsearched matched =>
    rw [descend]
    exact reaches_nil d.far matched
  | case2 unsearched matched index stack edges found hits ih =>
    rw [descend]
    exact (reaches_firstReaching d.far accepts matched _).append ih

/-- A search between bounds leads to each token once. -/
theorem reaches_descendWithin (d : Direction) (next : Int → List Edge) (accepts : Edge → Bool) (least left depth : Nat)
    (returned : List Int) (level : List Edge) :
    Reaches d.far returned (descendWithin d next accepts least left depth returned level) := by
  have hlevel : ∀ depth returned es,
      Reaches d.far returned (if least ≤ depth then firstReaching d.far accepts returned es else []) := by
    intro depth returned es
    split
    · exact reaches_firstReaching d.far accepts returned es
    · exact reaches_nil d.far returned
  induction left generalizing depth returned level with
  | zero => exact hlevel depth returned _
  | succ left ih =>
    simp only [descendWithin]
    split
    · exact reaches_nil d.far returned
    · exact (hlevel depth returned _).append (ih ..)

variable {s : Scope}

/-- Edges make candidates, each its own. -/
theorem nodup_candidates_of_edges {far : Edge → Int} {es : List Edge} (h : es.Nodup) :
    (es.map fun e => ((far e, some e) : Candidate)).Nodup :=
  h.map fun _ _ he => Option.some.inj (Prod.mk.inj he).2

/-- The tokens of candidates that edges make. -/
theorem map_fst_candidates_of_edges (far : Edge → Int) (es : List Edge) :
    (es.map fun e => ((far e, some e) : Candidate)).map (·.1) = es.map far := List.map_map

/-- Tokens make candidates, each its own. -/
theorem nodup_candidates_of_indices {α : Type} {l : List (Int × α)} (h : (l.map (·.1)).Nodup) :
    (l.map fun p => ((p.1, none) : Candidate)).Nodup := by
  have := h.map (f := fun i => ((i, none) : Candidate)) fun i j hij => (Prod.mk.inj hij).1
  rwa [List.map_map] at this

theorem nodup_nextWords (h : s.graph.indices.Nodup) (index : Int) : (s.nextWords index).Nodup :=
  nodup_candidates_of_indices (h.sublist (List.Sublist.map _ List.filter_sublist))

theorem nodup_siblings (s : Scope) (test : Int → Bool) (index : Int) : (s.siblings test index).Nodup := by
  refine nodup_candidates_of_indices (List.Nodup.sublist (List.Sublist.map _ List.filter_sublist) ?_)
  refine (List.Perm.map _ (Order.perm_sortBy _ _)).nodup_iff.2 ?_
  have hs : ∀ l : List Int, ((l.filterMap fun i => (s.graph.token? i).map fun t => (i, t)).map (·.1)).Sublist l := by
    intro l
    induction l with
    | nil => exact List.Sublist.slnil
    | cons i l ih =>
      rw [List.filterMap_cons]
      cases s.graph.token? i with
      | none => exact ih.cons i
      | some t => exact ih.cons_cons i
  exact List.Nodup.sublist (hs _) ((Order.ascending_distinct _).imp (by omega))

/-- No operator lists a candidate twice. -/
theorem nodup_candidates (h : s.graph.indices.Nodup) (o : Pattern.Operator) (index : Int) : (s.candidates o index).Nodup := by
  have hneighbours : ∀ d, (s.neighbours o d index).Nodup := fun d =>
    nodup_candidates_of_edges ((Edge.nodup_firstOfEach _ _).filter _)
  have hreached : ∀ d, (s.reached o d index).Nodup := by
    intro d
    refine nodup_candidates_of_edges (List.Nodup.of_map d.far ?_)
    split
    · exact (reaches_descendWithin ..).1
    · exact (reaches_descend ..).1
  unfold candidates
  cases o.kind with
  | child => exact hneighbours .down
  | parent => exact hneighbours .up
  | descendant => exact hreached .down
  | ancestor => exact hreached .up
  | same => exact List.nodup_singleton _
  | nextWord => exact nodup_nextWords h index
  | rightNeighbour => exact nodup_siblings s _ index
  | leftNeighbour => exact nodup_siblings s _ index
  | rightSibling => exact nodup_siblings s _ index
  | leftSibling => exact nodup_siblings s _ index

end Scope

end Treebank

import Treebank.Proofs.Match.Unbounded
import Mathlib.Order.Lattice.Nat

/-!
# Searches between bounds

A search between bounds goes through the walks from its start length by length. Of the edges that end walks of one length it keeps the
first one to each token, and goes on from there (`following`); so at every length it comes to all tokens to which a walk of that length
leads (`mem_map_level`), and finds a token at the first length, within the bounds, at which the edge that is kept is accepted
(`mem_map_descendWithin`). Without a label it is exact, and with one it is sound (`bounded_exact`).
-/

namespace Treebank

namespace Scope

open Pattern

section Levels

variable {d : Direction} {next : Int → List Edge} {accepts : Edge → Bool} {least left depth : Nat} {returned : List Int}
  {level : List Edge} {v : Int}

/-- The edges at which a search looks after those of a level: the edges behind the tokens of the level, the last token first. -/
def following (d : Direction) (next : Int → List Edge) (level : List Edge) : List Edge :=
  (firstToEach d.far level).reverse.flatMap fun e => next (d.far e)

/-- Whether a search that begins with a level finds a token some levels further on: the first edge to it there is accepted. -/
def FoundAt (d : Direction) (next : Int → List Edge) (accepts : Edge → Bool) (level : List Edge) (k : Nat) (v : Int) : Prop :=
  ∃ e ∈ firstToEach d.far ((following d next)^[k] level), accepts e ∧ d.far e = v

/-- What a search returns of a level. -/
def hits (d : Direction) (accepts : Edge → Bool) (least depth : Nat) (returned : List Int) (level : List Edge) : List Edge :=
  if least ≤ depth then firstReaching d.far accepts returned (firstToEach d.far level) else []

variable (next) in
/-- What a search returns of a level: what it finds there and did not return before. -/
theorem mem_map_hits : v ∈ (hits d accepts least depth returned level).map d.far ↔
    v ∉ returned ∧ least ≤ depth ∧ FoundAt d next accepts level 0 v := by
  unfold hits
  split
  · rename_i h
    rw [mem_map_firstReaching]
    simp only [h, true_and]
    rfl
  · rename_i h
    simp [h]

theorem of_mem_hits {e : Edge} (he : e ∈ hits d accepts least depth returned level) :
    accepts e ∧ least ≤ depth ∧ e ∈ firstToEach d.far level := by
  unfold hits at he
  split at he
  · rename_i h
    exact ⟨accepts_of_mem_firstReaching he, h, mem_of_mem_firstReaching he⟩
  · cases he

/-- Without edges to begin with nothing is found. -/
theorem descendWithin_nil : descendWithin d next accepts least left depth returned [] = [] := by
  cases left with
  | zero => simp [descendWithin, firstToEach, firstReaching]
  | succ left => simp [descendWithin]

theorem descendWithin_zero : descendWithin d next accepts least 0 depth returned level = hits d accepts least depth returned level :=
  rfl

/-- A search returns what it finds at a level, and goes on with the next one. -/
theorem descendWithin_succ : descendWithin d next accepts least (left + 1) depth returned level =
    hits d accepts least depth returned level ++ descendWithin d next accepts least left (depth + 1)
      ((hits d accepts least depth returned level).map d.far ++ returned) (following d next level) := by
  rw [descendWithin]
  split
  · rename_i h
    obtain rfl := List.isEmpty_iff.1 h
    have hnone : following d next [] = [] := rfl
    simp [hnone, descendWithin_nil, hits, firstToEach, firstReaching]
  · rfl

/-- One level further on is what follows from the next level. -/
theorem foundAt_succ {k : Nat} : FoundAt d next accepts level (k + 1) v ↔ FoundAt d next accepts (following d next level) k v := Iff.rfl

/-- A search finds, of the tokens not returned before, those that are found at some level within the bounds. -/
theorem mem_map_descendWithin : v ∈ (descendWithin d next accepts least left depth returned level).map d.far ↔
    v ∉ returned ∧ ∃ k ≤ left, least ≤ depth + k ∧ FoundAt d next accepts level k v := by
  induction left generalizing depth returned level with
  | zero =>
    rw [descendWithin_zero, mem_map_hits next]
    simp
  | succ left ih =>
    rw [descendWithin_succ, List.map_append, List.mem_append, ih, List.mem_append, not_or, mem_map_hits next]
    constructor
    · rintro (⟨hnew, hle, hfound⟩ | ⟨⟨-, hnew⟩, k, hk, hle, hfound⟩)
      · exact ⟨hnew, 0, Nat.zero_le _, hle, hfound⟩
      · exact ⟨hnew, k + 1, Nat.succ_le_succ hk, by omega, foundAt_succ.2 hfound⟩
    · rintro ⟨hnew, k, hk, hle, hfound⟩
      by_cases hhere : least ≤ depth ∧ FoundAt d next accepts level 0 v
      · exact .inl ⟨hnew, hhere⟩
      · cases k with
        | zero => exact absurd ⟨hle, hfound⟩ hhere
        | succ k => exact .inr ⟨⟨fun h => hhere h.2, hnew⟩, k, by omega, by omega, foundAt_succ.1 hfound⟩

/-- What a search finds, it finds by an accepted edge of some level within the bounds. -/
theorem level_of_mem_descendWithin {e : Edge} (he : e ∈ descendWithin d next accepts least left depth returned level) :
    accepts e ∧ ∃ k ≤ left, least ≤ depth + k ∧ e ∈ (following d next)^[k] level := by
  have hhere : ∀ {depth returned level}, e ∈ hits d accepts least depth returned level →
      accepts e ∧ least ≤ depth ∧ e ∈ level := fun he =>
    ⟨(of_mem_hits he).1, (of_mem_hits he).2.1, mem_of_mem_firstToEach (of_mem_hits he).2.2⟩
  induction left generalizing depth returned level with
  | zero =>
    obtain ⟨haccepts, hle, hlevel⟩ := hhere he
    exact ⟨haccepts, 0, Nat.le_refl 0, hle, hlevel⟩
  | succ left ih =>
    rw [descendWithin_succ] at he
    rcases List.mem_append.1 he with he | he
    · obtain ⟨haccepts, hle, hlevel⟩ := hhere he
      exact ⟨haccepts, 0, Nat.zero_le _, hle, hlevel⟩
    · obtain ⟨haccepts, k, hk, hle, hlevel⟩ := ih he
      exact ⟨haccepts, k + 1, Nat.succ_le_succ hk, by omega, hlevel⟩

/-- What a search finds earlier is found at no greater length. -/
theorem pairwise_descendWithin : (descendWithin d next accepts least left depth returned level).Pairwise fun e f =>
    ∀ k ≤ left, least ≤ depth + k → FoundAt d next accepts level k (d.far f) →
      ∃ j ≤ k, least ≤ depth + j ∧ FoundAt d next accepts level j (d.far e) := by
  have hhere : ∀ {depth returned level} {e : Edge}, e ∈ hits d accepts least depth returned level → ∀ k : Nat,
      ∃ j ≤ k, least ≤ depth + j ∧ FoundAt d next accepts level j (d.far e) := by
    intro depth returned level e he k
    obtain ⟨haccepts, hle, hfirst⟩ := of_mem_hits he
    exact ⟨0, Nat.zero_le k, hle, e, hfirst, haccepts, rfl⟩
  induction left generalizing depth returned level with
  | zero =>
    rw [descendWithin_zero]
    exact List.pairwise_of_forall_mem_list fun e he f _ k _ _ _ => hhere he k
  | succ left ih =>
    rw [descendWithin_succ]
    refine List.pairwise_append.2 ⟨?_, ?_, fun e he f _ k _ _ _ => hhere he k⟩
    · exact List.pairwise_of_forall_mem_list fun e he f _ k _ _ _ => hhere he k
    · refine ih.imp_of_mem fun {e f} he hf hef k hk hle hfound => ?_
      cases k with
      | zero =>
        -- The later token would have been found at this level, or before.
        have hnew := (mem_map_descendWithin.1 (List.mem_map_of_mem hf)).1
        rw [List.mem_append, not_or, mem_map_hits next] at hnew
        exact absurd ⟨hnew.2, hle, hfound⟩ hnew.1
      | succ k =>
        obtain ⟨j, hj, hle, hfound⟩ := hef k (by omega) (by omega) (foundAt_succ.1 hfound)
        exact ⟨j + 1, Nat.succ_le_succ hj, by omega, foundAt_succ.2 hfound⟩

end Levels

/-! ## Walks -/

section Walks

variable {s : Scope} {g : Graph} {d : Direction} {a v : Int} {k : Nat} {e : Edge}

/-- The edges of a level are last edges of walks of its length. -/
theorem endsWalk_of_mem_level (he : e ∈ (following d (d.edges g))^[k] (d.edges g a)) : g.EndsWalk d a (k + 1) e := by
  induction k generalizing e with
  | zero =>
    obtain ⟨hstored, rfl⟩ := Graph.mem_followed.1 he
    exact ⟨hstored, 0, rfl, .stay⟩
  | succ k ih =>
    rw [Function.iterate_succ_apply'] at he
    obtain ⟨f, hf, he⟩ := List.mem_flatMap.1 he
    obtain ⟨hstored, hnear⟩ := Graph.mem_followed.1 he
    have hwalk := (ih (mem_of_mem_firstToEach (List.mem_reverse.1 hf))).walk
    exact ⟨hstored, k + 1, rfl, hnear ▸ hwalk⟩

/-- A level comes to the tokens to which walks of its length lead. -/
theorem mem_map_level : v ∈ ((following d (d.edges g))^[k] (d.edges g a)).map d.far ↔ g.Walk d a (k + 1) v := by
  constructor
  · intro hv
    obtain ⟨e, he, rfl⟩ := List.mem_map.1 hv
    exact (endsWalk_of_mem_level he).walk
  · intro hwalk
    induction k generalizing v with
    | zero =>
      obtain ⟨e, ⟨he, m, hm, hstay⟩, rfl⟩ := hwalk.exists_endsWalk
      obtain rfl : m = 0 := by omega
      have hnear : d.near e = a := by
        cases hstay
        rfl
      exact List.mem_map_of_mem (Graph.mem_followed.2 ⟨he, hnear⟩)
    | succ k ih =>
      obtain ⟨e, ⟨he, m, hm, hbefore⟩, rfl⟩ := hwalk.exists_endsWalk
      obtain rfl : m = k + 1 := by omega
      -- The level before comes to the near end of the edge, and keeps an edge to it.
      obtain ⟨f, hf, hfar⟩ := List.mem_map.1 (mem_map_firstToEach.2 (ih hbefore))
      rw [Function.iterate_succ_apply']
      refine List.mem_map_of_mem (List.mem_flatMap.2 ⟨f, List.mem_reverse.2 hf, ?_⟩)
      exact Graph.mem_followed.2 ⟨he, hfar.symm⟩

/-- If every label is accepted, a token is found at all lengths of walks to it. -/
theorem foundAt_iff_walk {accepts : Edge → Bool} (h : ∀ e, accepts e) :
    FoundAt d (d.edges g) accepts (d.edges g a) k v ↔ g.Walk d a (k + 1) v := by
  rw [← mem_map_level, ← mem_map_firstToEach, List.mem_map]
  simp only [FoundAt, h, true_and]

/-- The candidates of a bounded relation over paths. -/
theorem candidates_bounded (d : Direction) (label : Label) (name : Option String) {m n : Nat} (hn : 1 ≤ n) (a : Int) :
    s.candidates { kind := d.pathKind, label := label, minDepth := m, maxDepth := n, edgeName := name } a =
      (descendWithin d (d.edges s.graph) (fun e => label.accepts s.hierarchical e.relation) m (n - 1) 1 []
        (d.edges s.graph a)).map fun e => (d.far e, some e) := by
  have hlimited : Operator.isLimited { kind := d.pathKind, label := label, minDepth := m, maxDepth := n, edgeName := name } = true :=
    decide_eq_true hn
  rw [candidates_pathKind rfl, reached, if_pos hlimited]
  rfl

/-- A bounded search finds the tokens that are found at some level within the bounds. -/
theorem mem_map_candidates_bounded (d : Direction) (label : Label) (name : Option String) {m n : Nat} (hn : 1 ≤ n) :
    v ∈ (s.candidates { kind := d.pathKind, label := label, minDepth := m, maxDepth := n, edgeName := name } a).map (·.1) ↔
      ∃ k, m ≤ k + 1 ∧ k < n ∧
        FoundAt d (d.edges s.graph) (fun e => label.accepts s.hierarchical e.relation) (d.edges s.graph a) k v := by
  rw [candidates_bounded d label name hn, map_fst_candidates_of_edges, mem_map_descendWithin]
  simp only [List.not_mem_nil, not_false_eq_true, true_and]
  constructor
  · rintro ⟨k, hk, hle, hfound⟩
    exact ⟨k, by omega, by omega, hfound⟩
  · rintro ⟨k, hle, hk, hfound⟩
    exact ⟨k, by omega, by omega, hfound⟩

/-- A search between bounds comes to an end and misses no token on its way. Without a label it finds exactly the tokens to which walks
lead whose length lies within the bounds, each once, by ascending least length of such walks. With any label it finds every token at most
once, by a stored edge with an accepted label that is the last one of a walk whose length lies within the bounds. -/
theorem bounded_exact (hs : s.graph.Sound) (ha : s.graph.hasToken a) (d : Direction) {m n : Nat} (hn : 1 ≤ n) (name : Option String) :
    let o (label : Label) : Operator := { kind := d.pathKind, label := label, minDepth := m, maxDepth := n, edgeName := name }
    let found (label : Label) : List Int := (s.candidates (o label) a).map (·.1)
    let within (k : Nat) : Prop := max 1 m ≤ k ∧ k ≤ n
    let leastLength (v : Int) : Nat := sInf {k | within k ∧ s.graph.Walk d a k v}
    (∀ v, v ∈ found .any ↔ ∃ k, within k ∧ s.graph.Walk d a k v) ∧
      (found .any).Nodup ∧
      ((found .any).Pairwise fun v w => leastLength v ≤ leastLength w) ∧
      ∀ label, s.checkedCandidates (o label) a = .ok (s.candidates (o label) a) ∧ (found label).Nodup ∧
        ∀ c ∈ s.candidates (o label) a, ∃ e k, c = (d.far e, some e) ∧ label.accepts s.hierarchical e.relation ∧ within k ∧
          s.graph.EndsWalk d a k e := by
  intro o found within leastLength
  have haccepts : ∀ e : Edge, Label.any.accepts s.hierarchical e.relation := fun _ => rfl
  have hfound : ∀ label, found label = (descendWithin d (d.edges s.graph) (fun e => label.accepts s.hierarchical e.relation) m (n - 1) 1
      [] (d.edges s.graph a)).map d.far := fun label =>
    (congrArg _ (candidates_bounded d label name hn a)).trans (map_fst_candidates_of_edges _ _)
  have hnodup : ∀ label, (found label).Nodup := fun label => by
    rw [hfound]
    exact (reaches_descendWithin d _ _ _ _ _ _ _).1
  have hany : ∀ v, v ∈ found .any ↔ ∃ k, within k ∧ s.graph.Walk d a k v := by
    intro v
    refine (mem_map_candidates_bounded d .any name hn).trans ?_
    simp only [foundAt_iff_walk haccepts]
    constructor
    · rintro ⟨k, hle, hk, hwalk⟩
      exact ⟨k + 1, ⟨by omega, by omega⟩, hwalk⟩
    · rintro ⟨k, ⟨hle, hk⟩, hwalk⟩
      obtain ⟨k, rfl⟩ := Nat.exists_eq_add_of_le' (show 1 ≤ k by omega)
      exact ⟨k, by omega, by omega, hwalk⟩
  refine ⟨hany, hnodup .any, ?_, fun label => ⟨checkedCandidates_eq hs ha _, hnodup label, fun c hc => ?_⟩⟩
  · rw [hfound, List.pairwise_map]
    refine pairwise_descendWithin.imp_of_mem fun {e f} _ hf hearlier => ?_
    have hleast : within (leastLength (d.far f)) ∧ s.graph.Walk d a (leastLength (d.far f)) (d.far f) :=
      Nat.sInf_mem ((hany _).1 (by rw [hfound]; exact List.mem_map_of_mem hf))
    obtain ⟨k, hk⟩ := Nat.exists_eq_add_of_le' (show 1 ≤ leastLength (d.far f) by omega)
    rw [hk] at hleast ⊢
    obtain ⟨j, hj, hle, hwalk⟩ := hearlier k (by omega) (by omega) ((foundAt_iff_walk haccepts).2 hleast.2)
    have hshort : leastLength (d.far e) ≤ j + 1 := Nat.sInf_le ⟨⟨by omega, by omega⟩, (foundAt_iff_walk haccepts).1 hwalk⟩
    omega
  · rw [candidates_bounded d label name hn] at hc
    obtain ⟨e, he, rfl⟩ := List.mem_map.1 hc
    obtain ⟨haccepts, k, hk, hle, hlevel⟩ := level_of_mem_descendWithin he
    exact ⟨e, k + 1, rfl, haccepts, ⟨by omega, by omega⟩, endsWalk_of_mem_level hlevel⟩

/-- So it is on a cycle, with walks of two or three edges: the start is found over the cycle, before the token that takes a walk more. -/
theorem bounded_exact_cycle :
    let there : Edge := { governor := 1, dependent := 2, relation := "x" }
    let back : Edge := { governor := 2, dependent := 1, relation := "y" }
    let onward : Edge := { governor := 2, dependent := 3, relation := "x" }
    let g : Graph :=
      { tokens := [(1, { index := 1, position := 1 }), (2, { index := 2, position := 2 }), (3, { index := 3, position := 3 })]
        arcs := [⟨2, onward⟩, ⟨1, back⟩, ⟨0, there⟩], fresh := 3 }
    let s : Scope := { graph := g }
    let o (label : Label) : Operator := { kind := .descendant, label := label, minDepth := 2, maxDepth := 3 }
    let found (label : Label) : List Int := (s.candidates (o label) 1).map (·.1)
    let within (k : Nat) : Prop := max 1 2 ≤ k ∧ k ≤ 3
    let leastLength (v : Int) : Nat := sInf {k | within k ∧ g.Walk .down 1 k v}
    g.Sound ∧ g.hasToken 1 ∧ 1 ≤ 3 ∧ found .any = [1, 3, 2] ∧ found (.exact "x") = [3, 2] ∧
      (∀ v, v ∈ found .any ↔ ∃ k, within k ∧ g.Walk .down 1 k v) ∧
      (found .any).Nodup ∧
      ((found .any).Pairwise fun v w => leastLength v ≤ leastLength w) ∧
      ∀ label, s.checkedCandidates (o label) 1 = .ok (s.candidates (o label) 1) ∧ (found label).Nodup ∧
        ∀ c ∈ s.candidates (o label) 1, ∃ e k, c = (e.dependent, some e) ∧ label.accepts false e.relation ∧ within k ∧
          g.EndsWalk .down 1 k e := by
  intro there back onward g s o found within leastLength
  have hsound : g.Sound := by
    refine (((((Graph.sound_empty.addToken (t := { index := 1, position := 1 }) rfl).addToken (t := { index := 2, position := 2 })
      rfl).addToken (t := { index := 3, position := 3 }) rfl).addEdge (e := there) rfl).addEdge (e := back) rfl).addEdge
      (e := onward) rfl
  exact ⟨hsound, rfl, by decide, by decide, by decide, bounded_exact hsound rfl .down (by decide) none⟩

end Walks

end Scope

end Treebank

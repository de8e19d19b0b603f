import Treebank.Match.Candidate
import Treebank.Proofs.Graph.Reach

/-!
# Walks

A walk passes from token to token over stored edges, all of them down or all of them up. What a search over paths has to do with the
graph is said by walks: what is reached at all is reached by a walk with fewer edges than there are tokens (`exists_walk_of_reaches`).
-/

open Relation

namespace Treebank

namespace Scope.Direction

open Pattern

/-- The end of an edge from which it is followed. -/
def near : Direction → Edge → Int
  | down, e => e.governor
  | up, e => e.dependent

/-- The kind of the relation over one edge. -/
def edgeKind : Direction → Kind
  | down => .child
  | up => .parent

/-- The kind of the relation over paths. -/
def pathKind : Direction → Kind
  | down => .descendant
  | up => .ancestor

end Scope.Direction

namespace Graph

open Scope (Direction)

/-- Whether an edge can be followed from one token to another. -/
def Follows (g : Graph) (d : Direction) (i j : Int) : Prop := ∃ e ∈ g.edges, d.near e = i ∧ d.far e = j

/-- Whether edges can be followed, one after the other, from one token to another. -/
def Reaches (g : Graph) (d : Direction) : Int → Int → Prop := ReflTransGen (g.Follows d)

/-- The walks from a token: how many edges they have, and where they end. -/
inductive Walk (g : Graph) (d : Direction) (start : Int) : Nat → Int → Prop where
  | stay : Walk g d start 0 start
  | step {n : Nat} {e : Edge} (he : e ∈ g.edges) (h : Walk g d start n (d.near e)) : Walk g d start (n + 1) (d.far e)

/-- Whether an edge is the last one of a walk with a number of edges. -/
def EndsWalk (g : Graph) (d : Direction) (start : Int) (n : Nat) (e : Edge) : Prop :=
  e ∈ g.edges ∧ ∃ k, n = k + 1 ∧ g.Walk d start k (d.near e)

variable {g : Graph} {d : Direction} {i j : Int} {n : Nat} {e : Edge}

/-! ## Edges that are followed -/

/-- The edges that are followed from a token are those that have it at the near end. -/
theorem mem_followed : e ∈ d.edges g i ↔ e ∈ g.edges ∧ d.near e = i := by
  have hfiltered : ∀ p : Edge → Bool, e ∈ (g.arcs.filter fun a => p a.edge).map (·.edge) ↔ e ∈ g.edges ∧ p e := by
    intro p
    simp only [List.mem_map, List.mem_filter, mem_edges]
    constructor
    · rintro ⟨a, ⟨ha, hp⟩, rfl⟩
      exact ⟨⟨a, ha, rfl⟩, hp⟩
    · rintro ⟨⟨a, ha, rfl⟩, hp⟩
      exact ⟨a, ⟨ha, hp⟩, rfl⟩
  cases d with
  | down => exact Order.mem_sortBy.trans ((hfiltered (·.governor == i)).trans (by rw [beq_iff_eq]; rfl))
  | up => exact Order.mem_sortBy.trans ((hfiltered (·.dependent == i)).trans (by rw [beq_iff_eq]; rfl))

/-- Where the edges that are followed from a token lead. -/
theorem mem_map_far : j ∈ (d.edges g i).map d.far ↔ g.Follows d i j := by
  simp only [List.mem_map, mem_followed, Follows, and_assoc]

/-- In a sound graph edges lead to tokens. -/
theorem Sound.mem_indices_of_follows (hg : g.Sound) (h : g.Follows d i j) : j ∈ g.indices := by
  obtain ⟨e, he, -, rfl⟩ := h
  obtain ⟨a, ha, rfl⟩ := mem_edges.1 he
  obtain ⟨hgovernor, hdependent⟩ := hg.ends a ha
  cases d with
  | down => exact hasToken_iff.1 hdependent
  | up => exact hasToken_iff.1 hgovernor

/-! ## Walks -/

/-- The last edge of a walk leads to its end. -/
theorem EndsWalk.walk (h : g.EndsWalk d i n e) : g.Walk d i n (d.far e) := by
  obtain ⟨he, k, rfl, hwalk⟩ := h
  exact .step he hwalk

/-- A walk with an edge has a last one. -/
theorem Walk.exists_endsWalk (h : g.Walk d i (n + 1) j) : ∃ e, g.EndsWalk d i (n + 1) e ∧ d.far e = j := by
  cases h with
  | step he h => exact ⟨_, ⟨he, n, rfl, h⟩, rfl⟩

/-- A walk shows that its end is reached. -/
theorem Walk.reaches (h : g.Walk d i n j) : g.Reaches d i j := by
  induction h with
  | stay => exact .refl
  | step he _ ih => exact .tail ih ⟨_, he, rfl, rfl⟩

/-- A walk with one more edge at its beginning. -/
theorem Walk.cons (h : g.Walk d (d.far e) n j) (he : e ∈ g.edges) : g.Walk d (d.near e) (n + 1) j := by
  induction h with
  | stay => exact .step he .stay
  | step hf _ ih => exact .step hf ih

/-- A way through some tokens need not come back to where it begins. -/
theorem avoids_start {next : Int → List Int} {unseen : List Int} (h : ReflTransGen (StepWithin next unseen) i j) :
    ReflTransGen (StepWithin next (apartFrom [i] unseen)) i j := by
  rcases avoids_or_from_found h [i] with hway | ⟨k, hk, hway⟩
  · exact hway
  · rwa [List.mem_singleton.1 (mem_among.1 hk).1] at hway

/-- Without one of its members a list is shorter. -/
theorem length_apartFrom_lt {unseen : List Int} (h : i ∈ unseen) : (apartFrom [i] unseen).length < unseen.length := by
  have hsum := length_among_add_length_apartFrom [i] unseen
  have hpos : 0 < (among [i] unseen).length := List.length_pos_of_mem (mem_among.2 ⟨List.mem_cons_self .., h⟩)
  omega

/-- What is reached through some tokens is reached by a walk with at most as many edges as there are tokens to pass. -/
theorem exists_walk_of_stepWithin {unseen : List Int} {m : Nat} (hm : unseen.length ≤ m)
    (h : ReflTransGen (StepWithin (fun i => (d.edges g i).map d.far) unseen) i j) : ∃ n ≤ m, g.Walk d i n j := by
  induction m generalizing unseen i with
  | zero =>
    rw [List.length_eq_zero_iff.1 (Nat.le_zero.1 hm)] at h
    rcases h.cases_head with rfl | ⟨k, hstep, -⟩
    · exact ⟨0, Nat.le_refl 0, .stay⟩
    · exact absurd hstep.2 List.not_mem_nil
  | succ m ih =>
    rcases h.cases_head with rfl | ⟨k, hstep, hway⟩
    · exact ⟨0, Nat.zero_le _, .stay⟩
    obtain ⟨e, he, rfl, rfl⟩ := mem_map_far.1 hstep.1
    have hfewer := length_apartFrom_lt hstep.2
    obtain ⟨n, hn, hwalk⟩ := ih (by omega) (avoids_start hway)
    exact ⟨n + 1, Nat.succ_le_succ hn, hwalk.cons he⟩

/-- Steps over edges lead to tokens, so they are steps within the tokens of the graph. -/
theorem Sound.stepWithin_of_reaches (hg : g.Sound) (h : g.Reaches d i j) :
    ReflTransGen (StepWithin (fun i => (d.edges g i).map d.far) g.indices) i j :=
  ReflTransGen.mono (fun _ _ hstep => ⟨mem_map_far.2 hstep, hg.mem_indices_of_follows hstep⟩) _ _ h

/-- What a token of a sound graph reaches it reaches by a walk with fewer edges than there are tokens. -/
theorem Sound.exists_walk_of_reaches (hg : g.Sound) (hi : g.hasToken i) (h : g.Reaches d i j) : ∃ n < g.size, g.Walk d i n j := by
  have hfewer : (apartFrom [i] g.indices).length < g.indices.length := length_apartFrom_lt (hasToken_iff.1 hi)
  have hsize : g.indices.length = g.size := List.length_map _
  obtain ⟨n, hn, hwalk⟩ := exists_walk_of_stepWithin (Nat.le_refl _) (avoids_start (hg.stepWithin_of_reaches h))
  exact ⟨n, by omega, hwalk⟩

end Graph

end Treebank

import Treebank.Graph.Reach
import Treebank.Proofs.Graph.Sound
import Mathlib.Logic.Relation

/-!
# What a sweep reaches

A sweep passes the tokens to which steps lead from its stack through tokens not seen so far, and no others (`mem_sweep_iff`). At the
beginning all tokens but those of the stack are unseen, so what is reached from some tokens is what steps lead to (`mem_reachedFrom_iff`).
-/

open Relation

namespace Treebank.Graph

variable {next : Int → List Int} {found unseen stack starts : List Int} {i j : Int}

/-! ## Sweeps -/

/-- A step to a neighbour, within a list of tokens. -/
def StepWithin (next : Int → List Int) (unseen : List Int) (i j : Int) : Prop := j ∈ next i ∧ j ∈ unseen

theorem mem_among : i ∈ among found unseen ↔ i ∈ found ∧ i ∈ unseen := by
  rw [among, List.mem_filter, List.contains_iff_mem, and_comm]

theorem mem_apartFrom : i ∈ apartFrom found unseen ↔ i ∉ found ∧ i ∈ unseen := by
  rw [apartFrom, List.mem_filter, and_comm]
  simp

/-- A way through some tokens avoids those that are found, from its beginning on or from one of them on. -/
theorem avoids_or_from_found (h : ReflTransGen (StepWithin next unseen) i j) (found : List Int) :
    ReflTransGen (StepWithin next (apartFrom found unseen)) i j ∨
      ∃ k ∈ among found unseen, ReflTransGen (StepWithin next (apartFrom found unseen)) k j := by
  induction h using ReflTransGen.head_induction_on with
  | refl => exact .inl .refl
  | @head i k hstep _ ih =>
    rcases ih with hfrom | hfound
    · by_cases hk : k ∈ found
      · exact .inr ⟨k, mem_among.2 ⟨hk, hstep.2⟩, hfrom⟩
      · exact .inl (.head ⟨hstep.1, mem_apartFrom.2 ⟨hk, hstep.2⟩⟩ hfrom)
    · exact .inr hfound

/-- A sweep passes what steps through unseen tokens lead to from its stack. -/
theorem mem_sweep_iff : i ∈ sweep next unseen stack ↔ ∃ s ∈ stack, ReflTransGen (StepWithin next unseen) s i := by
  induction unseen, stack using sweep.induct next with
  | case1 unseen => simp [sweep]
  | case2 unseen index stack found ih =>
    rw [sweep, List.mem_cons, ih]
    have hle : StepWithin next (apartFrom found unseen) ≤ StepWithin next unseen := fun _ _ hstep =>
      ⟨hstep.1, (mem_apartFrom.1 hstep.2).2⟩
    constructor
    · rintro (rfl | ⟨s, hs, hway⟩)
      · exact ⟨i, List.mem_cons_self .., .refl⟩
      · rcases List.mem_append.1 hs with hs | hs
        · exact ⟨index, List.mem_cons_self .., .head (mem_among.1 hs) (ReflTransGen.mono hle _ _ hway)⟩
        · exact ⟨s, List.mem_cons_of_mem index hs, ReflTransGen.mono hle _ _ hway⟩
    · rintro ⟨s, hs, hway⟩
      -- From where the way meets a neighbour of the top for the last time, it goes on through what stays unseen.
      have hrest : ∀ {k}, k ∈ among found unseen ++ stack → ReflTransGen (StepWithin next unseen) k i →
          ∃ s ∈ among found unseen ++ stack, ReflTransGen (StepWithin next (apartFrom found unseen)) s i := by
        intro k hk hway
        rcases avoids_or_from_found hway found with hfrom | ⟨k', hk', hfrom⟩
        · exact ⟨k, hk, hfrom⟩
        · exact ⟨k', List.mem_append_left _ hk', hfrom⟩
      rcases List.mem_cons.1 hs with rfl | hs
      · rcases ReflTransGen.cases_head hway with rfl | ⟨k, hstep, hway⟩
        · exact .inl rfl
        · exact .inr (hrest (List.mem_append_left _ (mem_among.2 hstep)) hway)
      · exact .inr (hrest (List.mem_append_right _ hs) hway)

/-- What is reached from some tokens is what steps lead to, if these lead to tokens alone. -/
theorem mem_reachedFrom_iff {g : Graph} (hnext : ∀ i, ∀ j ∈ next i, j ∈ g.indices) :
    i ∈ g.reachedFrom next starts ↔ ∃ s ∈ starts, ReflTransGen (fun i j => j ∈ next i) s i := by
  have hle : ∀ unseen, StepWithin next unseen ≤ fun i j => j ∈ next i := fun _ _ _ hstep => hstep.1
  have hge : (fun i j => j ∈ next i) ≤ StepWithin next g.indices := fun i j hstep => ⟨hstep, hnext i j hstep⟩
  rw [reachedFrom, Order.mem_distinct, mem_sweep_iff]
  constructor
  · rintro ⟨s, hs, hway⟩
    exact ⟨s, hs, ReflTransGen.mono (hle _) _ _ hway⟩
  · rintro ⟨s, hs, hway⟩
    rcases avoids_or_from_found (ReflTransGen.mono hge _ _ hway) starts with hfrom | ⟨k, hk, hfrom⟩
    · exact ⟨s, hs, hfrom⟩
    · exact ⟨k, (mem_among.1 hk).1, hfrom⟩

/-! ## Plain edges -/

/-- Whether a plain edge leads from a token to another one. -/
def Governs (g : Graph) (governor dependent : Int) : Prop :=
  ∃ a ∈ g.arcs, a.edge.extra = false ∧ a.edge.governor = governor ∧ a.edge.dependent = dependent

variable {g : Graph}

theorem mem_plainSuccessors : j ∈ g.plainSuccessors i ↔ g.Governs i j := by
  unfold plainSuccessors outgoing Governs
  simp only [List.mem_map, List.mem_filter, Order.mem_sortBy]
  constructor
  · rintro ⟨e, ⟨⟨a, ⟨ha, hi⟩, rfl⟩, hplain⟩, rfl⟩
    exact ⟨a, ha, by simpa using hplain, eq_of_beq hi, rfl⟩
  · rintro ⟨a, ha, hplain, rfl, rfl⟩
    exact ⟨a.edge, ⟨⟨a, ⟨ha, beq_self_eq_true _⟩, rfl⟩, by rw [hplain]; rfl⟩, rfl⟩

/-- Both ends of a plain edge are tokens. -/
theorem Sound.mem_indices_of_governs (hg : g.Sound) (h : g.Governs i j) : i ∈ g.indices ∧ j ∈ g.indices := by
  obtain ⟨a, ha, -, rfl, rfl⟩ := h
  exact ⟨hasToken_iff.1 (hg.ends a ha).1, hasToken_iff.1 (hg.ends a ha).2⟩

/-- What plain edges lead to from some tokens. -/
theorem Sound.mem_reachedFrom_plainSuccessors (hg : g.Sound) :
    i ∈ g.reachedFrom g.plainSuccessors starts ↔ ∃ s ∈ starts, ReflTransGen g.Governs s i := by
  rw [mem_reachedFrom_iff fun i j hj => (hg.mem_indices_of_governs (mem_plainSuccessors.1 hj)).2]
  simp only [mem_plainSuccessors]

end Treebank.Graph

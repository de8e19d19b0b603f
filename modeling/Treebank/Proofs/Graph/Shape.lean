import Treebank.Graph.Report
import Treebank.Proofs.Graph.Reach
import Mathlib.Order.WellFoundedSet

/-!
# Well-shaped graphs

The conditions behind the report on a graph, in terms of steps over plain edges: what is left of the tokens by trimming are cycles and
what leads into them, so nothing is left exactly if there are none (`isPlainAcyclic_iff`), and the report finds nothing wrong exactly
with well-shaped graphs (`report_valid_iff`). If no token is elided, then resetting the roots gives a graph without cycles, and with at most
one plain edge into each token, its shape (`wellShaped_resetRoots`).
-/

open Relation

namespace Treebank.Graph

/-! ## Steps that lead nowhere back -/

section Acyclic

variable {α : Type} {r r' : α → α → Prop}

/-- Whether no steps lead from anything back to it. -/
def Acyclic (r : α → α → Prop) : Prop := ∀ a, ¬ TransGen r a a

theorem Acyclic.mono (h : Acyclic r') (hle : r ≤ r') : Acyclic r := fun a ha => h a (TransGen.mono hle _ _ ha)

theorem Acyclic.swap (h : Acyclic r) : Acyclic (Function.swap r) := fun a ha => h a (transGen_swap.1 ha)

/-- What holds of a member of a list as soon as it holds of the members one step before it holds of all of them. -/
theorem Acyclic.forall_mem (h : Acyclic r) {l : List α} {P : α → Prop} (hstep : ∀ a ∈ l, (∀ b ∈ l, r b a → P b) → P a) :
    ∀ a ∈ l, P a := by
  have : IsStrictOrder α (TransGen r) := { irrefl := h, trans := fun _ _ _ => TransGen.trans }
  have hfounded : {a | a ∈ l}.WellFoundedOn (TransGen r) := (List.finite_toSet l).wellFoundedOn
  exact fun a ha => hfounded.induction ha fun b hb ih => hstep b hb fun c hc hcb => ih c hc (.single hcb)

end Acyclic

variable {g : Graph} {i j : Int} {l : List Int}

/-! ## Cycles -/

theorem mem_leadingInto : i ∈ g.leadingInto l ↔ i ∈ l ∧ ∃ j ∈ l, g.Governs i j := by
  unfold leadingInto
  rw [List.mem_filter, List.any_eq_true]
  simp only [mem_plainSuccessors, List.contains_iff_mem, and_comm]

/-- Trimming leaves what lies on a cycle. -/
theorem mem_trimmed_of_cycle (hl : ∀ j, TransGen g.Governs j j → j ∈ l) (hi : TransGen g.Governs i i) : i ∈ g.trimmed l := by
  induction l using trimmed.induct g with
  | case1 l rest hshorter ih =>
    rw [trimmed, if_pos hshorter]
    refine ih fun j hj => mem_leadingInto.2 ⟨hl j hj, ?_⟩
    -- The next token on the cycle of `j` lies on it, too.
    obtain ⟨k, hjk, hkj⟩ := TransGen.head'_iff.1 hj
    exact ⟨k, hl k (TransGen.tail' hkj hjk), hjk⟩
  | case2 l rest hsame =>
    rw [trimmed, if_neg hsame]
    exact hl i hi

/-- From all that trimming leaves a plain edge leads to something that it leaves. -/
theorem exists_governs_of_mem_trimmed (hi : i ∈ g.trimmed l) : ∃ j ∈ g.trimmed l, g.Governs i j := by
  induction l using trimmed.induct g with
  | case1 l rest hshorter ih =>
    rw [trimmed, if_pos hshorter] at hi ⊢
    exact ih hi
  | case2 l rest hsame =>
    have hall : g.leadingInto l = l := List.Sublist.eq_of_length_le List.filter_sublist (Nat.le_of_not_lt hsame)
    rw [trimmed, if_neg hsame] at hi ⊢
    rw [← hall] at hi
    exact (mem_leadingInto.1 hi).2

/-- The tokens of a cycle of plain edges are found exactly if there is one. -/
theorem isPlainAcyclic_iff (hg : g.Sound) : g.isPlainAcyclic ↔ Acyclic g.Governs := by
  unfold isPlainAcyclic
  rw [List.isEmpty_iff, List.eq_nil_iff_forall_not_mem]
  constructor
  · intro hnone i hi
    refine hnone i (mem_trimmed_of_cycle (fun j hj => ?_) hi)
    obtain ⟨k, hjk, -⟩ := TransGen.head'_iff.1 hj
    exact (hg.mem_indices_of_governs hjk).1
  · intro hacyclic
    refine hacyclic.swap.forall_mem fun i hi ih => ?_
    obtain ⟨j, hj, hij⟩ := exists_governs_of_mem_trimmed hi
    exact ih j hj hij

/-! ## Governors -/

/-- The plain edges into a token. -/
def plainInto (g : Graph) (index : Int) : List Arc := g.arcs.filter fun a => a.edge.dependent == index && !a.edge.extra

theorem length_plainInto (g : Graph) (index : Int) : ((g.incoming index).filter (!·.extra)).length = (g.plainInto index).length := by
  unfold incoming plainInto
  rw [((Order.perm_sortBy _ _).filter _).length_eq, List.filter_map, List.length_map, List.filter_filter]
  simp only [Function.comp_def, Bool.and_comm]

theorem mem_manyGoverned : i ∈ g.manyGoverned ↔ i ∈ g.indices ∧ 1 < (g.plainInto i).length := by
  unfold manyGoverned
  rw [List.mem_filter, length_plainInto, decide_eq_true_iff]

/-- Nothing but tokens has plain edges into it. -/
theorem Sound.plainInto_eq_nil (hg : g.Sound) (hi : i ∉ g.indices) : g.plainInto i = [] := by
  refine List.filter_eq_nil_iff.2 fun a ha h => hi ?_
  obtain ⟨hdependent, -⟩ := Bool.and_eq_true_iff.1 h
  exact eq_of_beq hdependent ▸ hasToken_iff.1 (hg.ends a ha).2

/-- A token has no governor exactly if no plain edge leads to it. -/
theorem governorEdge?_eq_none_iff : g.governorEdge? i = none ↔ ∀ j, ¬ g.Governs j i := by
  unfold governorEdge? incomingBySlot Governs
  rw [List.find?_eq_none]
  simp only [List.mem_map, Order.mem_sortBy, List.mem_filter]
  constructor
  · rintro hnone j ⟨a, ha, hplain, -, rfl⟩
    exact hnone a.edge ⟨a, ⟨ha, beq_self_eq_true _⟩, rfl⟩ (by rw [hplain]; rfl)
  · rintro hnone e ⟨a, ⟨ha, hi⟩, rfl⟩ hplain
    exact hnone a.edge.governor ⟨a, ha, by simpa using hplain, rfl, eq_of_beq hi⟩

theorem mem_headless : i ∈ g.headless ↔ ∃ t, (i, t) ∈ g.tokens ∧ t.isEmptyNode = false ∧ ∀ j, ¬ g.Governs j i := by
  unfold headless
  simp only [List.mem_map, List.mem_filter, Bool.and_eq_true, Bool.not_eq_true', Option.isNone_iff_eq_none, governorEdge?_eq_none_iff]
  constructor
  · rintro ⟨⟨k, t⟩, ⟨ht, hrest⟩, rfl⟩
    exact ⟨t, ht, hrest⟩
  · rintro ⟨t, ht, hrest⟩
    exact ⟨(i, t), ⟨ht, hrest⟩, rfl⟩

/-! ## Reports -/

theorem Sound.mem_unreachedTokens (hg : g.Sound) :
    i ∈ g.unreachedTokens ↔ ∃ t, (i, t) ∈ g.tokens ∧ t.isEmptyNode = false ∧ ¬ ∃ r ∈ g.roots, ReflTransGen g.Governs r i := by
  unfold unreachedTokens
  simp only [List.mem_map, List.mem_filter, Bool.and_eq_true, Bool.not_eq_true', ← hg.mem_reachedFrom_plainSuccessors]
  constructor
  · rintro ⟨⟨k, t⟩, ⟨ht, hreached, hordinary⟩, rfl⟩
    exact ⟨t, ht, hordinary, by simpa using hreached⟩
  · rintro ⟨t, ht, hordinary, hreached⟩
    exact ⟨(i, t), ⟨ht, by simpa using hreached, hordinary⟩, rfl⟩

/-- Graphs with which nothing is wrong. -/
structure WellShaped (g : Graph) : Prop where
  /-- There is a root, unless there is no token. -/
  rooted : g.tokens ≠ [] → g.roots ≠ []
  /-- At most one plain edge leads to each token. -/
  governed : ∀ i, (g.plainInto i).length ≤ 1
  /-- Plain edges form no cycle. -/
  acyclic : Acyclic g.Governs
  /-- Plain edges lead from a root to every token, but for the elided ones. -/
  reached : ∀ i t, (i, t) ∈ g.tokens → t.isEmptyNode = false → ∃ r ∈ g.roots, ReflTransGen g.Governs r i

/-- Tokens are there without a root exactly if the graph is not rooted. -/
theorem unrooted_eq_false_iff : (!g.isEmpty && g.roots.isEmpty) = false ↔ (g.tokens ≠ [] → g.roots ≠ []) := by
  unfold isEmpty
  cases g.tokens <;> cases g.roots <;> simp

/-- No token is listed for its governors exactly if none has more than one. -/
theorem Sound.manyGoverned_eq_nil_iff (hg : g.Sound) : g.manyGoverned = [] ↔ ∀ i, (g.plainInto i).length ≤ 1 := by
  rw [List.eq_nil_iff_forall_not_mem]
  refine forall_congr' fun i => ?_
  rw [mem_manyGoverned]
  by_cases hi : i ∈ g.indices
  · simp [hi]
  · simp [hi, hg.plainInto_eq_nil hi]

/-- No token is listed as unreached exactly if all ordinary ones are reached. -/
theorem Sound.unreachedTokens_eq_nil_iff (hg : g.Sound) : g.unreachedTokens = [] ↔
    ∀ i t, (i, t) ∈ g.tokens → t.isEmptyNode = false → ∃ r ∈ g.roots, ReflTransGen g.Governs r i := by
  rw [List.eq_nil_iff_forall_not_mem]
  refine forall_congr' fun i => ?_
  rw [hg.mem_unreachedTokens]
  constructor
  · intro hnone t ht hordinary
    by_contra hno
    exact hnone ⟨t, ht, hordinary, hno⟩
  · rintro hall ⟨t, ht, hordinary, hno⟩
    exact hno (hall t ht hordinary)

/-- The report on a graph is valid exactly if the graph is well-shaped. -/
theorem report_valid_iff (hg : g.Sound) : g.report.valid ↔ g.WellShaped := by
  have hvalid : g.report.valid ↔ (!g.isEmpty && g.roots.isEmpty) = false ∧ g.manyGoverned = [] ∧ g.isPlainAcyclic = true ∧
      g.unreachedTokens = [] := by
    unfold Report.valid report violations
    rw [List.isEmpty_iff]
    simp only [List.append_eq_nil_iff, List.isEmpty_iff, and_assoc]
    simp
  rw [hvalid, unrooted_eq_false_iff, hg.manyGoverned_eq_nil_iff, hg.unreachedTokens_eq_nil_iff, isPlainAcyclic_iff hg]
  exact ⟨fun ⟨hr, hg, ha, hu⟩ => ⟨hr, hg, ha, hu⟩, fun h => ⟨h.rooted, h.governed, h.acyclic, h.reached⟩⟩

/-! ## New roots -/

/-- Whether no token is elided. -/
def isUnelided (g : Graph) : Bool := g.tokens.all fun (_, t) => !t.isEmptyNode

theorem isUnelided_iff : g.isUnelided ↔ ∀ p ∈ g.tokens, p.2.isEmptyNode = false := by
  unfold isUnelided
  simp

/-- Where no token is elided and there are no cycles, plain edges lead to every token from one without a governor. -/
theorem exists_headless (hg : g.Sound) (hu : g.isUnelided) (hacyclic : Acyclic g.Governs) :
    ∀ i ∈ g.indices, ∃ r ∈ g.headless, ReflTransGen g.Governs r i := by
  refine hacyclic.forall_mem fun i hi ih => ?_
  by_cases hgoverned : ∃ j, g.Governs j i
  · obtain ⟨j, hj⟩ := hgoverned
    obtain ⟨r, hr, hway⟩ := ih j (hg.mem_indices_of_governs hj).1 hj
    exact ⟨r, hr, hway.tail hj⟩
  · obtain ⟨⟨k, t⟩, ht, rfl⟩ := List.mem_map.1 hi
    exact ⟨k, mem_headless.2 ⟨t, ht, isUnelided_iff.1 hu _ ht, not_exists.1 hgoverned⟩, .refl⟩

/-- Resetting the roots gives a graph its shape, if no token is elided, there are no cycles, and no token has two governors. -/
theorem wellShaped_resetRoots (hg : g.Sound) (hu : g.isUnelided) (hgoverned : ∀ i, (g.plainInto i).length ≤ 1)
    (hacyclic : Acyclic g.Governs) : g.resetRoots.WellShaped := by
  have hheadless := exists_headless hg hu hacyclic
  unfold resetRoots
  split
  · rename_i hnone
    -- Without a token to begin with there is none at all.
    have hempty : g.tokens = [] := by
      refine List.eq_nil_iff_forall_not_mem.2 fun p hp => ?_
      obtain ⟨r, hr, -⟩ := hheadless p.1 (List.mem_map_of_mem hp)
      rw [List.isEmpty_iff.1 hnone] at hr
      cases hr
    exact ⟨fun h => absurd hempty h, hgoverned, hacyclic, fun i t ht => by rw [hempty] at ht; cases ht⟩
  · rename_i hsome
    exact ⟨fun _ h => hsome (List.isEmpty_iff.2 h), hgoverned, hacyclic, fun i t ht _ => hheadless i (List.mem_map_of_mem ht)⟩

end Treebank.Graph

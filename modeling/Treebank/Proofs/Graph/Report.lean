import Treebank.Proofs.Graph.Shape
import Treebank.Proofs.Graph.Store
import Mathlib.Data.List.Chain
import Mathlib.Data.List.Rotate

/-!
# What a report says

A report lists a condition exactly if the graph fails it, and names exactly the tokens that fail (`report_exact`). For a cycle it lists
edges that lead around once: plain edges are followed through tokens that trimming has left, from each of which one leads on, until one
leads back onto the path (`Track.isCycle`).
-/

open Relation

namespace Treebank.Graph

variable {g : Graph} {left path l : List Int} {i j next : Int} {pairs : List (Int × Int)} {v : Violation}

/-! ## Cycles -/

/-- Ends of plain edges that lead around: each edge begins where the one before it leads, the first one where the last one leads, and
no two begin at one token. -/
structure IsCycle (g : Graph) (pairs : List (Int × Int)) : Prop where
  nonempty : pairs ≠ []
  stored : ∀ p ∈ pairs, g.Governs p.1 p.2
  closed : pairs.map (·.2) = (pairs.map (·.1)).rotate 1
  simple : (pairs.map (·.1)).Nodup

/-- A cycle may begin with any of its edges. -/
theorem IsCycle.rotate (h : g.IsCycle pairs) (n : Nat) : g.IsCycle (pairs.rotate n) where
  nonempty := fun hnil => h.nonempty (List.rotate_eq_nil_iff.1 hnil)
  stored := fun p hp => h.stored p (List.mem_rotate.1 hp)
  closed := by rw [List.map_rotate, List.map_rotate, h.closed, List.rotate_rotate, List.rotate_rotate, Nat.add_comm]
  simple := by
    rw [List.map_rotate]
    exact List.nodup_rotate.2 h.simple

/-- The tokens at which edges of a cycle end are those at which some begin. -/
theorem IsCycle.mem_tokens (h : g.IsCycle pairs) : i ∈ (Violation.cycle pairs).tokens ↔ ∃ p ∈ pairs, p.1 = i ∨ p.2 = i := by
  have hfirst : i ∈ pairs.map (·.1) ↔ ∃ p ∈ pairs, p.1 = i := List.mem_map
  have hsecond : i ∈ pairs.map (·.1) ↔ ∃ p ∈ pairs, p.2 = i := by rw [← List.mem_rotate, ← h.closed, List.mem_map]
  rw [Violation.tokens, Order.mem_distinct]
  simp only [and_or_left, exists_or]
  rw [← hfirst, ← hsecond, or_self]

/-- A list is turned around by cutting its beginning off and putting it behind the rest. -/
theorem dropWhile_append_takeWhile {α : Type} (p : α → Bool) (l : List α) :
    l.dropWhile p ++ l.takeWhile p = l.rotate (l.takeWhile p).length := by
  rw [← List.rotate_append_length_eq, List.takeWhile_append_dropWhile]

theorem fromLeast_eq_rotate (pairs : List (Int × Int)) : ∃ n, fromLeast pairs = pairs.rotate n :=
  ⟨_, dropWhile_append_takeWhile _ pairs⟩

theorem map_fst_cycleEdges (l : List Int) : (cycleEdges l).map (·.1) = l := by
  cases l with
  | nil => rfl
  | cons i l => exact List.map_fst_zip (by simp)

theorem map_snd_cycleEdges (l : List Int) : (cycleEdges l).map (·.2) = l.rotate 1 := by
  cases l with
  | nil => rfl
  | cons i l => exact (List.map_snd_zip (by simp)).trans (by simp)

/-- Along a chain from one token to another one each token leads to the next. -/
theorem forall_mem_zip_of_isChain {r : Int → Int → Prop} (h : List.IsChain r (i :: (l ++ [j]))) :
    ∀ p ∈ (i :: l).zip (l ++ [j]), r p.1 p.2 := by
  induction l generalizing i with
  | nil => simpa using h
  | cons k l ih =>
    obtain ⟨hik, hrest⟩ := List.isChain_cons_cons.1 h
    exact List.forall_mem_cons.2 ⟨hik, ih hrest⟩

/-- The edges between the tokens of a chain that comes back to its beginning. -/
theorem isCycle_cycleEdges (hchain : List.IsChain g.Governs (i :: (l ++ [i]))) (hnodup : (i :: l).Nodup) :
    g.IsCycle (cycleEdges (i :: l)) where
  nonempty := fun hnil => by simpa [hnil] using map_fst_cycleEdges (i :: l)
  stored := forall_mem_zip_of_isChain hchain
  closed := by rw [map_fst_cycleEdges, map_snd_cycleEdges]
  simple := by rwa [map_fst_cycleEdges]

/-! ## Following edges -/

/-- A path of plain edges, listed backwards, beside tokens that are not on it, where from all of these a plain edge leads to one of
them. -/
structure Track (g : Graph) (left path : List Int) (index : Int) : Prop where
  back : List.IsChain (fun i j => g.Governs j i) (index :: path)
  distinct : (left ++ index :: path).Nodup
  onward : ∀ i ∈ left ++ index :: path, ∃ j ∈ left ++ index :: path, g.Governs i j

/-- A token that is not on the path comes onto it. -/
theorem Track.extend (h : g.Track left path i) (hnext : next ∈ left) (hgoverns : g.Governs i next) :
    g.Track (left.erase next) (i :: path) next := by
  have hperm : (left.erase next ++ next :: i :: path).Perm (left ++ i :: path) :=
    List.perm_middle.trans ((List.perm_cons_erase hnext).symm.append_right (i :: path))
  refine ⟨List.isChain_cons_cons.2 ⟨hgoverns, h.back⟩, hperm.nodup_iff.2 h.distinct, fun j hj => ?_⟩
  obtain ⟨k, hk, hjk⟩ := h.onward j (hperm.mem_iff.1 hj)
  exact ⟨k, hperm.mem_iff.2 hk, hjk⟩

/-- A list up to a member of it. -/
theorem exists_eq_takeWhile_append (h : next ∈ l) : ∃ rest, l = l.takeWhile (· != next) ++ [next] ++ rest := by
  induction l with
  | nil => cases h
  | cons i l ih =>
    by_cases hi : i = next
    · exact ⟨l, by simp [hi]⟩
    · obtain ⟨rest, hrest⟩ := ih ((List.mem_cons.1 h).resolve_left (Ne.symm hi))
      exact ⟨rest, by simpa [hi] using hrest⟩

/-- Where an edge leads back onto the path, it closes a cycle. -/
theorem Track.close (h : g.Track left path i) (hnext : next ∈ i :: path) (hgoverns : g.Governs i next) :
    g.IsCycle (cycleEdges (next :: ((i :: path).takeWhile (· != next)).reverse)) := by
  obtain ⟨rest, hrest⟩ := exists_eq_takeWhile_append hnext
  have hback := h.back
  have hdistinct := (List.nodup_append.1 h.distinct).2.1
  have hhead : ((i :: path).takeWhile (· != next) ++ [next]).head? = some i := by
    by_cases hi : i = next <;> simp [hi]
  generalize (i :: path).takeWhile (· != next) = passed at hrest hhead ⊢
  rw [hrest] at hback hdistinct
  have hforth : List.IsChain g.Governs (next :: passed.reverse) := by
    rw [← List.reverse_concat', List.isChain_reverse]
    exact hback.left_of_append
  refine isCycle_cycleEdges (List.isChain_append.2 ⟨hforth, .singleton next, ?_⟩) ?_
  · intro j hj k hk
    rw [← List.reverse_concat', List.getLast?_reverse, hhead] at hj
    cases hj
    cases hk
    exact hgoverns
  · rw [← List.reverse_concat', List.nodup_reverse]
    exact hdistinct.of_append_left

/-- Following plain edges until one leads back gives a cycle. -/
theorem Track.isCycle (h : g.Track left path i) : g.IsCycle (cycleEdges (g.closeCycle left path i)) := by
  have hfound : ∀ {left path : List Int} {index next : Int},
      ((g.plainSuccessors index).find? fun i => left.contains i || (index :: path).contains i) = some next →
        g.Governs index next ∧ (next ∈ left ∨ next ∈ index :: path) := by
    intro left path index next hfind
    refine ⟨mem_plainSuccessors.1 (List.mem_of_find?_eq_some hfind), ?_⟩
    simpa only [Bool.or_eq_true, List.contains_iff_mem] using List.find?_some hfind
  induction left, path, i using closeCycle.induct g with
  | case1 left path index hnone =>
    -- From the end of the path an edge leads on.
    obtain ⟨j, hj, hgoverns⟩ := h.onward index (List.mem_append_right _ (List.mem_cons_self ..))
    have hno := List.find?_eq_none.1 hnone j (mem_plainSuccessors.2 hgoverns)
    simp only [Bool.or_eq_true, List.contains_iff_mem] at hno
    exact absurd (List.mem_append.1 hj) hno
  | case2 left path index next hfind hleft _ _ ih =>
    rw [closeCycle, hfind]
    simp only [dif_pos hleft]
    exact ih (h.extend hleft (hfound hfind).1)
  | case3 left path index next hfind hleft =>
    rw [closeCycle, hfind]
    simp only [dif_neg hleft]
    exact h.close ((hfound hfind).2.resolve_left hleft) (hfound hfind).1

theorem trimmed_sublist (g : Graph) (l : List Int) : (g.trimmed l).Sublist l := by
  induction l using trimmed.induct g with
  | case1 l rest hshorter ih =>
    rw [trimmed, if_pos hshorter]
    exact ih.trans List.filter_sublist
  | case2 l rest hsame => rw [trimmed, if_neg hsame]

/-- If plain edges form a cycle, one is found. -/
theorem Sound.isCycle_plainCycle (hg : g.Sound) (hcycle : g.isPlainAcyclic = false) : g.IsCycle g.plainCycle := by
  have hnodup := (nodup_of_ascending hg.ascending).sublist (trimmed_sublist g g.indices)
  have honward : ∀ i ∈ g.trimmed g.indices, ∃ j ∈ g.trimmed g.indices, g.Governs i j := fun i => exists_governs_of_mem_trimmed
  unfold isPlainAcyclic at hcycle
  unfold plainCycle
  cases htrimmed : g.trimmed g.indices with
  | nil => simp [htrimmed] at hcycle
  | cons index rest =>
    rw [htrimmed] at hnodup honward
    have hperm : (rest ++ [index]).Perm (index :: rest) := List.perm_append_singleton index rest
    have htrack : g.Track rest [] index := by
      refine ⟨.singleton index, hperm.nodup_iff.2 hnodup, fun i hi => ?_⟩
      obtain ⟨j, hj, hgoverns⟩ := honward i (hperm.mem_iff.1 hi)
      exact ⟨j, hperm.mem_iff.2 hj, hgoverns⟩
    obtain ⟨n, hn⟩ := fromLeast_eq_rotate (cycleEdges (g.closeCycle rest [] index))
    simp only [hn]
    exact htrack.isCycle.rotate n

/-! ## Violations -/

/-- What a report lists: for each condition that fails, what was found. -/
theorem mem_violations : v ∈ g.violations ↔
    (v = .unrooted g.size ∧ ¬ (g.tokens ≠ [] → g.roots ≠ [])) ∨ (v = .severalGovernors g.manyGoverned ∧ g.manyGoverned ≠ []) ∨
      (v = .cycle g.plainCycle ∧ g.isPlainAcyclic = false) ∨ (v = .unreached g.unreachedTokens ∧ g.unreachedTokens ≠ []) := by
  rw [← unrooted_eq_false_iff, Bool.not_eq_false]
  unfold violations
  simp only [List.mem_append, List.mem_ite_nil_left, List.mem_ite_nil_right, List.mem_singleton, List.isEmpty_iff, ne_eq,
    Bool.not_eq_true, or_assoc, and_comm]

/-- A violation that is listed if something holds. -/
theorem name_ite_sublist (p : Prop) [Decidable p] (v : Violation) :
    ((if p then [v] else []).map Violation.name).Sublist [v.name] ∧ ((if p then [] else [v]).map Violation.name).Sublist [v.name] := by
  by_cases hp : p <;> simp [hp]

/-- A report lists each condition at most once, in one order. -/
theorem name_violations_sublist (g : Graph) :
    (g.violations.map Violation.name).Sublist ["rooted", "single_governor", "primary_acyclicity", "reachability"] := by
  unfold violations
  simp only [List.map_append]
  exact ((((name_ite_sublist _ _).1.append (name_ite_sublist _ _).2).append (name_ite_sublist _ _).2).append (name_ite_sublist _ _).2)

/-- What an exact report on a graph says: a condition is listed once if the graph fails it, and else not at all, with exactly what fails. -/
structure Report.Exact (g : Graph) (r : Report) : Prop where
  valid : r.valid ↔ g.WellShaped
  once : (r.violations.map Violation.name).Nodup
  rooted : (∃ n, .unrooted n ∈ r.violations) ↔ ¬ (g.tokens ≠ [] → g.roots ≠ [])
  governed : (∃ is, .severalGovernors is ∈ r.violations) ↔ ¬ ∀ i, (g.plainInto i).length ≤ 1
  acyclic : (∃ pairs, .cycle pairs ∈ r.violations) ↔ ¬ Acyclic g.Governs
  reached : (∃ is, .unreached is ∈ r.violations) ↔
    ¬ ∀ i t, (i, t) ∈ g.tokens → t.isEmptyNode = false → ∃ r ∈ g.roots, ReflTransGen g.Governs r i
  governedTokens : ∀ is, .severalGovernors is ∈ r.violations → is.Nodup ∧ ∀ i, i ∈ is ↔ 1 < (g.plainInto i).length
  cycleEdges : ∀ pairs, .cycle pairs ∈ r.violations → g.IsCycle pairs ∧
    ∀ i, i ∈ (Violation.cycle pairs).tokens ↔ ∃ p ∈ pairs, p.1 = i ∨ p.2 = i
  reachedTokens : ∀ is, .unreached is ∈ r.violations → is.Nodup ∧
    ∀ i, i ∈ is ↔ ∃ t, (i, t) ∈ g.tokens ∧ t.isEmptyNode = false ∧ ¬ ∃ r ∈ g.roots, ReflTransGen g.Governs r i

/-- A violation of one kind is listed exactly if its condition fails. -/
theorem exists_mem_violations {α : Type} {listed : α → Violation} {fails : Prop} {found : α}
    (h : ∀ a, listed a ∈ g.violations ↔ a = found ∧ fails) : (∃ a, listed a ∈ g.violations) ↔ fails :=
  ⟨fun ⟨a, ha⟩ => ((h a).1 ha).2, fun hfails => ⟨found, (h found).2 ⟨rfl, hfails⟩⟩⟩

theorem unrooted_mem_violations (n : Nat) : .unrooted n ∈ g.violations ↔ n = g.size ∧ ¬ (g.tokens ≠ [] → g.roots ≠ []) := by
  simp [mem_violations]

theorem severalGovernors_mem_violations (is : List Int) :
    .severalGovernors is ∈ g.violations ↔ is = g.manyGoverned ∧ g.manyGoverned ≠ [] := by
  simp [mem_violations]

theorem cycle_mem_violations (pairs : List (Int × Int)) :
    .cycle pairs ∈ g.violations ↔ pairs = g.plainCycle ∧ g.isPlainAcyclic = false := by
  simp [mem_violations]

theorem unreached_mem_violations (is : List Int) :
    .unreached is ∈ g.violations ↔ is = g.unreachedTokens ∧ g.unreachedTokens ≠ [] := by
  simp [mem_violations]

/-- The tokens listed for their governors are those with more than one. -/
theorem Sound.mem_manyGoverned_iff (hg : g.Sound) : i ∈ g.manyGoverned ↔ 1 < (g.plainInto i).length := by
  rw [mem_manyGoverned, and_iff_right_iff_imp]
  intro hmany
  by_contra hi
  simp [hg.plainInto_eq_nil hi] at hmany

/-- The report on a graph is exact, and the ends of edges in an arena that holds the graph agree with their places. -/
theorem report_exact (hg : g.Sound) : g.report.Exact g ∧ ∀ s : Store, s.Aligned → s.graph = g → s.strayed = [] := by
  have hindices := nodup_of_ascending hg.ascending
  refine ⟨{
    valid := report_valid_iff hg
    once := (name_violations_sublist g).nodup (by decide)
    rooted := exists_mem_violations unrooted_mem_violations
    governed := (exists_mem_violations severalGovernors_mem_violations).trans hg.manyGoverned_eq_nil_iff.not
    acyclic := (exists_mem_violations cycle_mem_violations).trans (Bool.eq_false_iff.trans (isPlainAcyclic_iff hg).not)
    reached := (exists_mem_violations unreached_mem_violations).trans hg.unreachedTokens_eq_nil_iff.not
    governedTokens := fun is his => ?governedTokens
    cycleEdges := fun pairs hpairs => ?cycleEdges
    reachedTokens := fun is his => ?reachedTokens }, fun s hs _ => hs.strayed_eq_nil⟩
  case governedTokens =>
    obtain ⟨rfl, -⟩ := (severalGovernors_mem_violations is).1 his
    exact ⟨hindices.filter _, fun i => hg.mem_manyGoverned_iff⟩
  case cycleEdges =>
    obtain ⟨rfl, hcycle⟩ := (cycle_mem_violations pairs).1 hpairs
    have hfound := hg.isCycle_plainCycle hcycle
    exact ⟨hfound, fun i => hfound.mem_tokens⟩
  case reachedTokens =>
    obtain ⟨rfl, -⟩ := (unreached_mem_violations is).1 his
    exact ⟨hindices.sublist (List.filter_sublist.map _), fun i => hg.mem_unreachedTokens⟩

/-- So it is where two plain edges lead from one token to another, and a cycle lies apart from the root. -/
theorem report_exact_cycle_apart :
    let g : Graph :=
      { tokens := [(0, { index := 0 }), (1, { index := 1 }), (2, { index := 2 }), (3, { index := 3 })]
        arcs := [⟨4, ⟨0, 3, "c", .one, true⟩⟩, ⟨3, ⟨2, 3, "b", .one, false⟩⟩, ⟨2, ⟨3, 2, "a", .one, false⟩⟩,
          ⟨1, ⟨0, 1, "b", .one, false⟩⟩, ⟨0, ⟨0, 1, "a", .one, false⟩⟩]
        fresh := 5
        roots := [0] }
    g.Sound ∧ (g.report.Exact g ∧ ∀ s : Store, s.Aligned → s.graph = g → s.strayed = []) ∧
      g.violations = [.severalGovernors [1], .cycle [(2, 3), (3, 2)], .unreached [2, 3]] := by
  intro g
  have hg : g.Sound :=
    (sound_empty.run [.addToken { index := 0 }, .addToken { index := 1 }, .addToken { index := 2 }, .addToken { index := 3 },
      .addEdge ⟨0, 1, "a", .one, false⟩, .addEdge ⟨0, 1, "b", .one, false⟩, .addEdge ⟨3, 2, "a", .one, false⟩,
      .addEdge ⟨2, 3, "b", .one, false⟩, .addEdge ⟨0, 3, "c", .one, true⟩, .setRoots [0]]).1
  exact ⟨hg, report_exact hg, by decide +kernel⟩

/-- Not every token that is reported as unreached has zero for its number among elided ones: a negative number does not make a token
elided, either. -/
theorem unreached_below_zero :
    let g : Graph := { tokens := [(0, { index := 0 }), (1, { index := 1, emptyIndex := -1 })], roots := [0] }
    g.Sound ∧ g.violations = [.unreached [1]] ∧
      ¬ (g.report.valid ↔ (g.tokens = [] ∨ g.roots ≠ []) ∧ (∀ i, (g.plainInto i).length ≤ 1) ∧ Acyclic g.Governs ∧
        ∀ i t, (i, t) ∈ g.tokens → t.emptyIndex = 0 → ∃ r ∈ g.roots, ReflTransGen g.Governs r i) := by
  intro g
  have hg : g.Sound := (sound_empty.run [.addToken { index := 0 }, .addToken { index := 1, emptyIndex := -1 }, .setRoots [0]]).1
  refine ⟨hg, by decide +kernel, fun hiff => ?_⟩
  have hacyclic : Acyclic g.Governs := (isPlainAcyclic_iff hg).1 (by decide +kernel)
  have hvalid : g.report.valid := hiff.2 ⟨by decide, fun i => Nat.zero_le 1, hacyclic, fun i t ht hzero => ?_⟩
  · revert hvalid
    decide +kernel
  · -- The first token is the root, and the number of the second one is not zero.
    rcases List.mem_pair.1 ht with h | h <;> cases h
    · exact ⟨0, by decide, .refl⟩
    · cases hzero

end Treebank.Graph

import Treebank.Proofs.Match.Fingerprint
import Treebank.Proofs.Surgery.Chain

/-!
# Exhaustive surgery without duplicates

What is made of a graph may be equal to it, or to what was made before. Of the graphs made, those are to be returned that differ from
the source and from all made before them, in the order in which they were made (`KeepsFirsts`). Exhaustive surgery that drops duplicates
returns just these, and no fewer with one round more, unless all that it makes is one graph that is equal to the source: a single
result is not looked at, and is returned as it is (`exhaust_keepsFirsts_iff`, `exhaust_returns_source`).
-/

namespace Treebank.Surgery

open Treebank.Graph

/-- Whether the graph at a place is the first of its kind: it differs from the source and from the graphs before it. -/
def FirstAt (g : Graph) (made : List Graph) (place : Nat) : Prop :=
  ∃ h, made[place]? = some h ∧ ¬ h.same g ∧ ∀ earlier < place, ∀ k, made[earlier]? = some k → ¬ k.same h

/-- What is to be kept of the graphs that were made of a source: of all graphs that are equal to each other and not to the source, the
one that was made first. -/
structure KeepsFirsts (g : Graph) (made kept : List Graph) : Prop where
  /-- No two are equal. -/
  apart : kept.Pairwise fun h k => ¬ h.same k
  /-- None is equal to the source. -/
  new : ∀ h ∈ kept, ¬ h.same g
  /-- Each graph that differs from the source has an equal one, and no other. -/
  once : ∀ h ∈ made, ¬ h.same g → ∃! k, k ∈ kept ∧ k.same h
  /-- They stand in the order in which they were made first. -/
  inOrder : ∃ places : List Nat, places.Pairwise (· < ·) ∧ kept.map some = places.map (made[·]?) ∧
    ∀ place, place ∈ places ↔ FirstAt g made place

variable {surgeries : List Surgery} {g h k : Graph} {made : List Graph} {seen : List Signature}

/-! ## Dropping what was seen -/

/-- Nothing is kept that was seen. -/
theorem signature_notMem_of_mem_dropSeen (h : Graph) (hh : h ∈ dropSeen seen made) : h.signature ∉ seen := by
  induction made generalizing seen with
  | nil => cases hh
  | cons k made ih =>
    simp only [dropSeen] at hh
    split at hh
    · exact ih hh
    · rename_i hnew
      rcases List.mem_cons.1 hh with rfl | hh
      · exact fun hmem => hnew (List.contains_iff_mem.2 hmem)
      · exact fun hmem => ih hh (List.mem_cons_of_mem _ hmem)

/-- No two graphs that are kept are equal. -/
theorem nodup_signatures_dropSeen (seen : List Signature) (made : List Graph) : ((dropSeen seen made).map (·.signature)).Nodup := by
  induction made generalizing seen with
  | nil => exact List.nodup_nil
  | cons h made ih =>
    simp only [dropSeen]
    split
    · exact ih seen
    · rw [List.map_cons, List.nodup_cons]
      refine ⟨fun hmem => ?_, ih _⟩
      obtain ⟨k, hk, hsame⟩ := List.mem_map.1 hmem
      exact signature_notMem_of_mem_dropSeen k hk (hsame ▸ List.mem_cons_self ..)

/-- No graph like another one stands before a place behind the first graph exactly if neither the first one nor one of the rest does. -/
theorem none_before_succ_iff (g h : Graph) (made : List Graph) (place : Nat) :
    (∀ earlier < place + 1, ∀ k, (g :: made)[earlier]? = some k → ¬ k.same h) ↔
      ¬ g.same h ∧ ∀ earlier < place, ∀ k, made[earlier]? = some k → ¬ k.same h := by
  constructor
  · intro hall
    exact ⟨hall 0 (Nat.succ_pos _) g rfl, fun earlier hlt k hk => hall (earlier + 1) (Nat.succ_lt_succ hlt) k hk⟩
  · rintro ⟨hfirst, hrest⟩ (_ | earlier) hlt k hk
    · cases hk
      exact hfirst
    · exact hrest earlier (Nat.lt_of_succ_lt_succ hlt) k hk

/-- What is kept are the graphs that were not seen, at the places where they stand first. -/
theorem exists_places (seen : List Signature) (made : List Graph) :
    ∃ places : List Nat, places.Pairwise (· < ·) ∧ (dropSeen seen made).map some = places.map (made[·]?) ∧
      ∀ place, place ∈ places ↔ ∃ h, made[place]? = some h ∧ h.signature ∉ seen ∧
        ∀ earlier < place, ∀ k, made[earlier]? = some k → ¬ k.same h := by
  induction made generalizing seen with
  | nil => exact ⟨[], List.Pairwise.nil, rfl, fun place => by simp⟩
  | cons g made ih =>
    simp only [dropSeen]
    split
    · rename_i hseen
      obtain ⟨places, hascend, hkept, hmem⟩ := ih seen
      refine ⟨places.map (· + 1), ?_, ?_, fun place => ?_⟩
      · exact List.pairwise_map.2 (hascend.imp Nat.succ_lt_succ)
      · rw [hkept, List.map_map]
        rfl
      · cases place with
        | zero => simp [List.contains_iff_mem.1 hseen]
        | succ place =>
          simp only [List.mem_map, Nat.add_right_cancel_iff, exists_eq_right, hmem, List.getElem?_cons_succ, none_before_succ_iff]
          refine exists_congr fun h => and_congr_right fun _ => and_congr_right fun hnew => ?_
          refine (and_iff_right fun hsame => hnew ?_).symm
          exact (beq_iff_eq.1 hsame) ▸ List.contains_iff_mem.1 hseen
    · rename_i hnew
      obtain ⟨places, hascend, hkept, hmem⟩ := ih (g.signature :: seen)
      refine ⟨0 :: places.map (· + 1), ?_, ?_, fun place => ?_⟩
      · refine List.pairwise_cons.2 ⟨fun place hplace => ?_, List.pairwise_map.2 (hascend.imp Nat.succ_lt_succ)⟩
        obtain ⟨n, -, rfl⟩ := List.mem_map.1 hplace
        exact Nat.succ_pos n
      · rw [List.map_cons, hkept, List.map_cons, List.map_map]
        rfl
      · cases place with
        | zero =>
          have hg : g.signature ∉ seen := fun hmem => hnew (List.contains_iff_mem.2 hmem)
          simp [hg]
        | succ place =>
          simp only [List.mem_cons, Nat.succ_ne_zero, false_or, List.mem_map, Nat.add_right_cancel_iff, exists_eq_right, hmem,
            List.getElem?_cons_succ, none_before_succ_iff]
          refine exists_congr fun h => and_congr_right fun _ => ?_
          have hsame : h.signature = g.signature ↔ g.same h := eq_comm.trans beq_iff_eq.symm
          rw [not_or, hsame]
          tauto

/-- Removing duplicates and the source keeps just the first graphs of each kind. -/
theorem keepsFirsts_removeDuplicates (g : Graph) (made : List Graph) : KeepsFirsts g made (removeDuplicates (some g) made) := by
  have hnew : ∀ h : Graph, h.signature ∉ (some g |>.map (·.signature)).toList ↔ ¬ h.same g := by
    intro h
    simp [Graph.same]
  have hdistinct := nodup_signatures_dropSeen (some g |>.map (·.signature)).toList made
  refine ⟨?_, fun h hh => (hnew h).1 (signature_notMem_of_mem_dropSeen h hh), fun h hh hne => ?_, ?_⟩
  · exact (List.pairwise_map.1 hdistinct).imp fun hne hsame => hne (beq_iff_eq.1 hsame)
  · obtain ⟨k, hk, hsame⟩ := (seen_or_kept _ hh).resolve_left ((hnew h).2 hne)
    refine ⟨k, ⟨hk, hsame⟩, ?_⟩
    rintro k' ⟨hk', hsame'⟩
    have heq : k'.signature = k.signature := (beq_iff_eq.1 hsame').trans (beq_iff_eq.1 hsame).symm
    exact List.inj_on_of_nodup_map hdistinct hk' hk heq
  · obtain ⟨places, hascend, hkept, hmem⟩ := exists_places (some g |>.map (·.signature)).toList made
    refine ⟨places, hascend, hkept, fun place => ?_⟩
    simp only [hmem, FirstAt, hnew]

/-! ## Exhaustive surgery -/

/-- Whether one graph is made, and this is equal to the source. -/
def OnlySource (g : Graph) (made : List Graph) : Prop := ∃ h, made = [h] ∧ h.same g

/-- What exhaustive surgery returns does not depend on what is recorded. -/
theorem exhaust_results (surgeries : List Surgery) (maxDepth : Int) (unique : Bool) (g : Graph) (sink : Sink) :
    ((exhaust surgeries maxDepth unique g).run sink).1 =
      let made := (chainsFrom surgeries (maxDepth - 1).toNat g).map (·.2)
      if unique && made.length > 1 then removeDuplicates (some g) made else made := by
  have hmade := chains_results surgeries (maxDepth - 1).toNat g sink
  have hrun : ((exhaust surgeries maxDepth unique g).run sink).1 =
      let made := ((chains surgeries (maxDepth - 1).toNat g).run sink).1
      if unique && made.length > 1 then removeDuplicates (some g) made else made := rfl
  rw [hrun, hmade]

/-- A single graph is left as it is, whether it is equal to the source or not; of several just the first ones of their kinds are kept. -/
theorem keepsFirsts_iff (g : Graph) (made : List Graph) :
    KeepsFirsts g made (if made.length > 1 then removeDuplicates (some g) made else made) ↔ ¬ OnlySource g made := by
  constructor
  · rintro hkeeps ⟨h, rfl, hsame⟩
    exact hkeeps.new h (List.mem_singleton_self h) hsame
  · intro hother
    match made with
    | [] => exact keepsFirsts_removeDuplicates g []
    | [h] =>
      have hnew : h.signature ≠ g.signature := fun heq => hother ⟨h, rfl, beq_iff_eq.2 heq⟩
      have hkept : removeDuplicates (some g) [h] = [h] := by simp [removeDuplicates, dropSeen, hnew]
      have hkeeps := keepsFirsts_removeDuplicates g [h]
      rwa [hkept] at hkeeps
    | h :: k :: made => exact keepsFirsts_removeDuplicates g (h :: k :: made)

/-- What is made in some rounds is made in one round more. -/
theorem chainsFrom_subset (surgeries : List Surgery) (maxDepth : Int) (g : Graph) :
    (chainsFrom surgeries (maxDepth - 1).toNat g).map (·.2) ⊆ (chainsFrom surgeries (maxDepth + 1 - 1).toNat g).map (·.2) := by
  intro h hh
  obtain ⟨⟨cs, h⟩, hchain, rfl⟩ := List.mem_map.1 hh
  obtain ⟨hchain, hleast, hmost⟩ := mem_chainsFrom.1 hchain
  exact List.mem_map.2 ⟨(cs, h), mem_chainsFrom.2 ⟨hchain, hleast, by omega⟩, rfl⟩

/-- Of two lists of which one holds all that the other holds, the firsts of their kinds that are kept of the other are equal to such of the
one, unless the other one alone is a single graph that is equal to the source. -/
theorem kept_subset_iff {made more : List Graph} (hmore : made ⊆ more) :
    (∀ h ∈ if made.length > 1 then removeDuplicates (some g) made else made,
      ∃ k ∈ if more.length > 1 then removeDuplicates (some g) more else more, k.same h) ↔
        (OnlySource g made → OnlySource g more) := by
  constructor
  · rintro hsub ⟨h, rfl, hsame⟩
    by_contra hother
    obtain ⟨k, hk, hkh⟩ := hsub h (List.mem_singleton_self h)
    have hkg : k.same g := beq_iff_eq.2 ((beq_iff_eq.1 hkh).trans (beq_iff_eq.1 hsame))
    exact ((keepsFirsts_iff g more).2 hother).new k hk hkg
  · intro honly h hh
    by_cases hsource : OnlySource g made
    · -- The larger list has no more than the one graph either.
      obtain ⟨k, rfl, -⟩ := honly hsource
      obtain ⟨h', rfl, -⟩ := hsource
      have hk : h' = k := List.mem_singleton.1 (hmore (List.mem_singleton_self h'))
      rw [hk] at hh
      exact ⟨h, hh, beq_self_eq_true _⟩
    · have hkeeps := (keepsFirsts_iff g made).2 hsource
      have hnew := hkeeps.new h hh
      have hmade : h ∈ made := by
        split at hh
        · exact mem_of_mem_dropSeen hh
        · exact hh
      have hother : ¬ OnlySource g more := by
        rintro ⟨k, rfl, hk⟩
        rw [List.mem_singleton.1 (hmore hmade)] at hnew
        exact hnew hk
      obtain ⟨k, ⟨hk, hsame⟩, -⟩ := ((keepsFirsts_iff g more).2 hother).once h (hmore hmade) hnew
      exact ⟨k, hk, hsame⟩

/-- Exhaustive surgery that drops duplicates returns the first graph of each kind, the source's kind left out, in the order in which
they are made, exactly if it does not make one graph alone that is equal to the source. What it returns has its equal among what it
returns with one round more, exactly unless the one graph that it makes is equal to the source and a further round makes more. -/
theorem exhaust_keepsFirsts_iff (surgeries : List Surgery) (maxDepth : Int) (g : Graph) (sink : Sink) :
    let made depth := ((exhaust surgeries depth false g).run sink).1
    let kept depth := ((exhaust surgeries depth true g).run sink).1
    (KeepsFirsts g (made maxDepth) (kept maxDepth) ↔ ¬ OnlySource g (made maxDepth)) ∧
      ((∀ h ∈ kept maxDepth, ∃ k ∈ kept (maxDepth + 1), k.same h) ↔
        (OnlySource g (made maxDepth) → OnlySource g (made (maxDepth + 1)))) := by
  intro made kept
  have hmade : ∀ depth, made depth = (chainsFrom surgeries (depth - 1).toNat g).map (·.2) := fun depth => exhaust_results ..
  have hkept : ∀ depth, kept depth = if (made depth).length > 1 then removeDuplicates (some g) (made depth) else made depth := by
    intro depth
    rw [hmade]
    simpa using exhaust_results surgeries depth true g sink
  have hmore : made maxDepth ⊆ made (maxDepth + 1) := by
    rw [hmade, hmade]
    exact chainsFrom_subset surgeries maxDepth g
  rw [hkept, hkept]
  exact ⟨keepsFirsts_iff g _, kept_subset_iff hmore⟩

/-- A surgery that changes nothing makes, in one round, one graph that is equal to the source, and this is returned; with a round more it
makes two, and none is returned. -/
theorem exhaust_returns_source :
    ∃ s : Surgery, Pattern.ofText {} "\x7bword:a\x7d=x" = .ok s.pattern ∧ s.edits = [.setRoots ["x"]] ∧
      let g : Graph := { tokens := [(0, { index := 0, word := "a" })], roots := [0] }
      (∃ h, ((exhaust [s] 1 true g).run {}).1 = [h] ∧ h.same g) ∧ ((exhaust [s] 2 true g).run {}).1 = [] ∧
        ¬ KeepsFirsts g ((exhaust [s] 1 false g).run {}).1 ((exhaust [s] 1 true g).run {}).1 := by
  let g : Graph := { tokens := [(0, { index := 0, word := "a" })], roots := [0] }
  let surgery (p : Pattern) : Surgery := { pattern := p, edits := [.setRoots ["x"]] }
  obtain ⟨p, hp, hruns⟩ := exists_ok_of_map_toOption (x := Pattern.ofText {} "\x7bword:a\x7d=x")
    (g := fun p => (((exhaust [surgery p] 1 true g).run {}).1, ((exhaust [surgery p] 2 true g).run {}).1)) (b := ([g], []))
    (by decide +kernel)
  obtain ⟨hone, htwo⟩ := Prod.mk.inj hruns
  refine ⟨surgery p, hp, rfl, ⟨g, hone, beq_self_eq_true _⟩, htwo, fun hkeeps => ?_⟩
  exact hkeeps.new g (hone ▸ List.mem_singleton_self g) (beq_self_eq_true _)

end Treebank.Surgery

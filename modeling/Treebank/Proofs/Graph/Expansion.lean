import Treebank.Proofs.Checked.Candidate
import Treebank.Proofs.Graph.Content
import Treebank.Proofs.Graph.Twig
import Treebank.Proofs.Match.Candidate
import Treebank.Proofs.Match.Walk
import Mathlib.Data.Set.Card

/-!
# What the compact form expands

Where twigs grow, each token that is met is expanded once, where it is met first, and stays bare after that (`mentioned_grow`); its edges
are written when it is expanded (`perm_written_grow`). A root is expanded at its turn also if it was met before. So the compact form writes
every edge that can be reached from a root, and it writes it once exactly if no root with dependents is reached from an earlier one
(`compact_expands_once_iff`).
-/

open Relation

namespace Treebank.Graph

open Twig

variable {g : Graph} {unseen mid rest : List Int} {i : Int} {es : List Edge}

/-- The relations and the tokens below a token that is expanded. -/
def expanded (g : Graph) (index : Int) : List (String × Int) := (g.branches index).map fun e => (e.relation, e.dependent)

/-- What stands below a token where it is mentioned. -/
def mentionsOf (index : Int) (mentions : List (Int × List (String × Int))) : List (List (String × Int)) :=
  (mentions.filter (·.1 == index)).map (·.2)

/-- The announced edges: the governor, the relation and the dependent of each. -/
def announced (mentions : List (Int × List (String × Int))) : List (Int × String × Int) :=
  mentions.flatMap fun m => m.2.map fun head => (m.1, head.1, head.2)

/-- The edges below a token that is expanded: the governor, the relation and the dependent of each. -/
def bonds (g : Graph) (index : Int) : List (Int × String × Int) := (g.expanded index).map fun head => (index, head.1, head.2)

/-! ## Growth from edges -/

/-- Below a token stand the relations and the dependents of the edges from which its twigs grow. -/
theorem heads_grow (g : Graph) (unseen : List Int) (es : List Edge) :
    heads (g.grow unseen es).below = es.map fun e => (e.relation, e.dependent) := by
  induction es generalizing unseen with
  | nil => rw [(grow_nil g unseen).1]; rfl
  | cons e es ih =>
    by_cases h : e.dependent ∈ unseen
    · rw [(grow_expanded h es).1, heads, List.map_cons, ← heads, ih]
      rfl
    · rw [(grow_bare h es).1, heads, List.map_cons, ← heads, ih]
      rfl

/-- What is not expanded afterwards was not expanded before. -/
theorem rest_grow (g : Graph) (unseen : List Int) (es : List Edge) : (g.grow unseen es).rest.Sublist unseen := by
  induction unseen, es using grow.induct g with
  | case1 unseen => rw [(grow_nil g unseen).2]
  | case2 unseen e es h _ inner _ ih ih' =>
    rw [(grow_expanded h es).2]
    exact ih'.trans (ih.trans List.erase_sublist)
  | case3 unseen e es h ih => rwa [(grow_bare h es).2]

/-- How a token is mentioned, if some tokens were not expanded before and some of these are not expanded afterwards. -/
structure Mentioned (g : Graph) (unseen rest : List Int) (i : Int) (below : List (List (String × Int))) : Prop where
  /-- A token that is not expanded is not met. -/
  unmet : i ∈ rest → below = []
  /-- A token that was expanded before stays bare. -/
  bare : i ∉ unseen → ∀ b ∈ below, b = []
  /-- Any other token is expanded where it is met first, and stays bare after that. -/
  first : i ∈ unseen → i ∉ rest → ∃ further, below = g.expanded i :: further ∧ ∀ b ∈ further, b = []

/-- Mentions come one after the other. -/
theorem Mentioned.append {l l' : List (List (String × Int))} (h : Mentioned g unseen mid i l) (h' : Mentioned g mid rest i l')
    (hmid : mid ⊆ unseen) (hrest : rest ⊆ mid) : Mentioned g unseen rest i (l ++ l') where
  unmet hi := by rw [h.unmet (hrest hi), h'.unmet hi, List.append_nil]
  bare hi b hb := by
    rcases List.mem_append.1 hb with hb | hb
    · exact h.bare hi b hb
    · exact h'.bare (fun hm => hi (hmid hm)) b hb
  first hi hi' := by
    by_cases hm : i ∈ mid
    · rw [h.unmet hm, List.nil_append]
      exact h'.first hm hi'
    · obtain ⟨further, rfl, hfurther⟩ := h.first hi hm
      refine ⟨further ++ l', rfl, fun b hb => ?_⟩
      rcases List.mem_append.1 hb with hb | hb
      · exact hfurther b hb
      · exact h'.bare hm b hb

/-- A token that was not expanded before is expanded. -/
theorem mentioned_expanded (g : Graph) (hn : unseen.Nodup) {j : Int} (hj : j ∈ unseen) (i : Int) :
    Mentioned g unseen (unseen.erase j) i (mentionsOf i [(j, g.expanded j)]) := by
  by_cases hij : j = i
  · subst hij
    have hone : mentionsOf j [(j, g.expanded j)] = [g.expanded j] := by simp [mentionsOf]
    rw [hone]
    exact ⟨fun hi => absurd hi hn.not_mem_erase, fun hi => absurd hj hi, fun _ _ => ⟨[], rfl, by simp⟩⟩
  · have hnone : mentionsOf i [(j, g.expanded j)] = [] := by simp [mentionsOf, hij]
    rw [hnone]
    exact ⟨fun _ => rfl, by simp, fun hi hi' => absurd ((List.mem_erase_of_ne (Ne.symm hij)).2 hi) hi'⟩

/-- A token that was expanded before stays bare. -/
theorem mentioned_bare (g : Graph) {j : Int} (hj : j ∉ unseen) (i : Int) : Mentioned g unseen unseen i (mentionsOf i [(j, [])]) := by
  refine ⟨fun hi => ?_, fun _ => ?_, fun hi hi' => absurd hi hi'⟩
  · have hne : j ≠ i := fun hij => hj (hij ▸ hi)
    simp [mentionsOf, hne]
  · simp [mentionsOf]

/-- Mentions in what comes one after the other. -/
theorem mentionsOf_append (i : Int) (l l' : List (Int × List (String × Int))) : mentionsOf i (l ++ l') = mentionsOf i l ++ mentionsOf i l' := by
  rw [mentionsOf, List.filter_append, List.map_append]
  rfl

/-- Where a dependent is expanded, the token itself, what grows from its edges and what grows from the others follow one another. -/
theorem belowMentions_expanded {e : Edge} (h : e.dependent ∈ unseen) (es : List Edge) :
    belowMentions (g.grow unseen (e :: es)).below =
      [(e.dependent, g.expanded e.dependent)] ++
        (belowMentions (g.grow (unseen.erase e.dependent) (g.branches e.dependent)).below ++
          belowMentions (g.grow (g.grow (unseen.erase e.dependent) (g.branches e.dependent)).rest es).below) := by
  rw [(grow_expanded h es).1, belowMentions, Twig.mentions, heads_grow]
  rfl

/-- Where a dependent stays bare, what grows from the other edges follows. -/
theorem belowMentions_bare {e : Edge} (h : e.dependent ∉ unseen) (es : List Edge) :
    belowMentions (g.grow unseen (e :: es)).below = [(e.dependent, [])] ++ belowMentions (g.grow unseen es).below := by
  rw [(grow_bare h es).1, belowMentions, Twig.mentions]
  rfl

/-- Each token that is met where twigs grow is expanded where it is met first. -/
theorem mentioned_grow (g : Graph) (hn : unseen.Nodup) (es : List Edge) (i : Int) :
    Mentioned g unseen (g.grow unseen es).rest i (mentionsOf i (belowMentions (g.grow unseen es).below)) := by
  induction unseen, es using grow.induct g with
  | case1 unseen =>
    rw [(grow_nil g unseen).1, (grow_nil g unseen).2]
    exact ⟨fun _ => rfl, by simp [belowMentions, mentionsOf], fun hi hi' => absurd hi hi'⟩
  | case2 unseen e es h _ inner _ ih ih' =>
    have hinner := rest_grow g (unseen.erase e.dependent) (g.branches e.dependent)
    have houter := rest_grow g inner.rest es
    have hbelow := (ih (hn.erase _)).append (ih' ((hn.erase _).sublist hinner)) hinner.subset houter.subset
    have hall := (mentioned_expanded g hn h i).append hbelow List.erase_subset (houter.trans hinner).subset
    rwa [belowMentions_expanded h, (grow_expanded h es).2, mentionsOf_append, mentionsOf_append]
  | case3 unseen e es h ih =>
    have hall := (mentioned_bare g h i).append (ih hn) (List.Subset.refl _) (rest_grow g unseen es).subset
    rwa [belowMentions_bare h, (grow_bare h es).2, mentionsOf_append]

theorem announced_append (l l' : List (Int × List (String × Int))) : announced (l ++ l') = announced l ++ announced l' :=
  List.flatMap_append

/-- Where twigs grow, the edges of the tokens are announced that are expanded. -/
theorem perm_announced_grow (g : Graph) (unseen : List Int) (es : List Edge) :
    (announced (belowMentions (g.grow unseen es).below) ++ (g.grow unseen es).rest.flatMap g.bonds).Perm (unseen.flatMap g.bonds) := by
  induction unseen, es using grow.induct g with
  | case1 unseen =>
    rw [(grow_nil g unseen).1, (grow_nil g unseen).2]
    exact List.Perm.refl _
  | case2 unseen e es h _ inner _ ih ih' =>
    have hhead : announced [(e.dependent, g.expanded e.dependent)] = g.bonds e.dependent := List.flatMap_singleton ..
    rw [belowMentions_expanded h, (grow_expanded h es).2, announced_append, announced_append, hhead, List.append_assoc, List.append_assoc]
    have hrest := (ih'.append_left _).trans ih
    exact (hrest.append_left _).trans ((List.perm_cons_erase h).flatMap_right g.bonds).symm
  | case3 unseen e es h ih =>
    rwa [belowMentions_bare h, (grow_bare h es).2, announced_append]

/-! ## What growth reaches -/

/-- Whether a token stands below another one where this one is expanded. -/
def Leads (g : Graph) (i j : Int) : Prop := ∃ e ∈ g.branches i, e.dependent = j

/-- The tokens that are expanded where twigs grow from edges are those that are reached from their dependents through tokens that were
not expanded before. -/
structure Covers (g : Graph) (unseen : List Int) (es : List Edge) (rest : List Int) : Prop where
  starts : ∀ e ∈ es, e.dependent ∉ rest
  closed : ∀ i ∈ unseen, i ∉ rest → ∀ j, g.Leads i j → j ∉ rest
  reached : ∀ i ∈ unseen, i ∉ rest → ∃ e ∈ es, ReflTransGen g.Leads e.dependent i

/-- What is expanded where twigs grow is closed under steps over edges. -/
theorem covers_grow (g : Graph) (hn : unseen.Nodup) (es : List Edge) : Covers g unseen es (g.grow unseen es).rest := by
  induction unseen, es using grow.induct g with
  | case1 unseen =>
    rw [(grow_nil g unseen).2]
    exact ⟨by simp, fun i hi hi' => absurd hi hi', fun i hi hi' => absurd hi hi'⟩
  | case2 unseen e es h _ inner _ ih ih' =>
    have hsub := rest_grow g (unseen.erase e.dependent) (g.branches e.dependent)
    have houter := rest_grow g inner.rest es
    have hinner := ih (hn.erase _)
    have hothers := ih' ((hn.erase _).sublist hsub)
    rw [(grow_expanded h es).2]
    -- A token is the dependent itself, or it is expanded below it, or where the other edges grow.
    have hcases : ∀ i ∈ unseen, i = e.dependent ∨ (i ∈ unseen.erase e.dependent ∧ i ∉ inner.rest) ∨ i ∈ inner.rest := by
      intro i hi
      by_cases hie : i = e.dependent
      · exact .inl hie
      · by_cases hm : i ∈ inner.rest
        · exact .inr (.inr hm)
        · exact .inr (.inl ⟨(List.mem_erase_of_ne hie).2 hi, hm⟩)
    refine ⟨?_, fun i hi hi' j hj => ?_, fun i hi hi' => ?_⟩
    · refine List.forall_mem_cons.2 ⟨fun hm => ?_, hothers.starts⟩
      exact hn.not_mem_erase (hsub.subset (houter.subset hm))
    · rcases hcases i hi with rfl | ⟨hi, hm⟩ | hm
      · obtain ⟨f, hf, rfl⟩ := hj
        exact fun hm => hinner.starts f hf (houter.subset hm)
      · exact fun hm' => hinner.closed i hi hm j hj (houter.subset hm')
      · exact hothers.closed i hm hi' j hj
    · rcases hcases i hi with rfl | ⟨hi, hm⟩ | hm
      · exact ⟨e, List.mem_cons_self .., .refl⟩
      · obtain ⟨f, hf, hway⟩ := hinner.reached i hi hm
        exact ⟨e, List.mem_cons_self .., .head ⟨f, hf, rfl⟩ hway⟩
      · obtain ⟨f, hf, hway⟩ := hothers.reached i hm hi'
        exact ⟨f, List.mem_cons_of_mem e hf, hway⟩
  | case3 unseen e es h ih =>
    have hothers := ih hn
    rw [(grow_bare h es).2]
    refine ⟨List.forall_mem_cons.2 ⟨fun hm => h ((rest_grow g unseen es).subset hm), hothers.starts⟩, hothers.closed, fun i hi hi' => ?_⟩
    obtain ⟨f, hf, hway⟩ := hothers.reached i hi hi'
    exact ⟨f, List.mem_cons_of_mem e hf, hway⟩

/-! ## Roots -/

/-- The roots that were expanded before their turn comes. -/
def again (g : Graph) (unseen : List Int) : List Int → List Int
  | [] => []
  | root :: roots =>
    (if root ∈ unseen then [] else [root]) ++ again g (g.grow (unseen.erase root) (g.branches root)).rest roots

variable {root : Int} {roots done : List Int}

/-- Only roots are expanded as such. -/
theorem again_subset (g : Graph) (unseen roots : List Int) : g.again unseen roots ⊆ roots := by
  induction roots generalizing unseen with
  | nil => simp [again]
  | cons root roots ih =>
    intro r hr
    rw [again] at hr
    rcases List.mem_append.1 hr with hr | hr
    · split at hr
      · cases hr
      · exact List.mem_singleton.1 hr ▸ List.mem_cons_self ..
    · exact List.mem_cons_of_mem root (ih _ hr)

/-- The mentions in the twigs of roots. -/
theorem flatMap_mentions_growRoots (g : Graph) (unseen : List Int) (root : Int) (roots : List Int) :
    (g.growRoots unseen (root :: roots)).1.flatMap Twig.mentions =
      [(root, g.expanded root)] ++ belowMentions (g.grow (unseen.erase root) (g.branches root)).below ++
        (g.growRoots (g.grow (unseen.erase root) (g.branches root)).rest roots).1.flatMap Twig.mentions := by
  rw [growRoots, List.flatMap_cons, Twig.mentions, heads_grow]
  rfl

/-- What is not expanded after the roots was not expanded before. -/
theorem rest_growRoots (g : Graph) (unseen roots : List Int) : (g.growRoots unseen roots).2.Sublist unseen := by
  induction roots generalizing unseen with
  | nil => exact List.Sublist.refl _
  | cons root roots ih => exact (ih _).trans ((rest_grow g _ _).trans List.erase_sublist)

/-- The twigs of roots announce the edges of the tokens that are expanded, and once more those of the roots that are expanded again. -/
theorem perm_announced_growRoots (g : Graph) (unseen roots : List Int) :
    (announced ((g.growRoots unseen roots).1.flatMap Twig.mentions) ++ (g.growRoots unseen roots).2.flatMap g.bonds).Perm
      (unseen.flatMap g.bonds ++ (g.again unseen roots).flatMap g.bonds) := by
  induction roots generalizing unseen with
  | nil =>
    rw [again, List.flatMap_nil, List.append_nil]
    exact List.Perm.refl _
  | cons root roots ih =>
    have hhead : announced [(root, g.expanded root)] = g.bonds root := List.flatMap_singleton ..
    have hrest := perm_announced_grow g (unseen.erase root) (g.branches root)
    have hroots := ih (g.grow (unseen.erase root) (g.branches root)).rest
    have hturn : (g.bonds root ++ (unseen.erase root).flatMap g.bonds).Perm
        (unseen.flatMap g.bonds ++ (if root ∈ unseen then [] else [root]).flatMap g.bonds) := by
      split
      · rename_i hunseen
        rw [List.flatMap_nil, List.append_nil]
        exact ((List.perm_cons_erase hunseen).flatMap_right g.bonds).symm
      · rename_i hseen
        rw [List.erase_of_not_mem hseen, List.flatMap_singleton]
        exact List.perm_append_comm
    rw [flatMap_mentions_growRoots, announced_append, announced_append, hhead, again, List.flatMap_append]
    show (_ ++ (g.growRoots (g.grow (unseen.erase root) (g.branches root)).rest roots).2.flatMap g.bonds).Perm _
    rw [List.append_assoc, List.append_assoc, ← List.append_assoc (unseen.flatMap g.bonds)]
    refine ((hroots.append_left _).append_left _).trans ?_
    rw [← List.append_assoc, ← List.append_assoc]
    refine List.Perm.append_right _ ?_
    rw [List.append_assoc]
    exact (hrest.append_left _).trans hturn

/-- A root at its turn, and what grows below it. -/
theorem mentioned_root (g : Graph) (hn : unseen.Nodup) (hroot : root ∈ unseen ∨ g.expanded root = []) (i : Int) :
    Mentioned g unseen (g.grow (unseen.erase root) (g.branches root)).rest i
      (mentionsOf i ([(root, g.expanded root)] ++ belowMentions (g.grow (unseen.erase root) (g.branches root)).below)) := by
  have hbelow := mentioned_grow g (hn.erase root) (g.branches root) i
  have hsub := (rest_grow g (unseen.erase root) (g.branches root)).subset
  rw [mentionsOf_append]
  by_cases hunseen : root ∈ unseen
  · exact (mentioned_expanded g hn hunseen i).append hbelow List.erase_subset hsub
  · rw [List.erase_of_not_mem hunseen] at hbelow hsub ⊢
    have hhead := mentioned_bare g hunseen i
    rw [← hroot.resolve_left hunseen] at hhead
    exact hhead.append hbelow (List.Subset.refl _) hsub

/-- Each token that is met in the twigs of roots is expanded where it is met first and there alone, if no root with dependents was expanded
before its turn. -/
theorem mentioned_growRoots (g : Graph) (hn : unseen.Nodup) (hagain : ∀ r ∈ g.again unseen roots, g.expanded r = []) (i : Int) :
    Mentioned g unseen (g.growRoots unseen roots).2 i (mentionsOf i ((g.growRoots unseen roots).1.flatMap Twig.mentions)) := by
  induction roots generalizing unseen with
  | nil => exact ⟨fun _ => rfl, by simp [growRoots, mentionsOf], fun hi hi' => absurd hi hi'⟩
  | cons root roots ih =>
    rw [again] at hagain
    obtain ⟨hturn, hlater⟩ := List.forall_mem_append.1 hagain
    have hroot : root ∈ unseen ∨ g.expanded root = [] := by
      by_cases hunseen : root ∈ unseen
      · exact .inl hunseen
      · exact .inr (hturn root (by simp [hunseen]))
    have hsub := (rest_grow g (unseen.erase root) (g.branches root)).trans List.erase_sublist
    have hall := (mentioned_root g hn hroot i).append (ih (hn.sublist hsub) hlater) hsub.subset (rest_growRoots g _ roots).subset
    rwa [flatMap_mentions_growRoots, mentionsOf_append]

/-- A root is expanded at its turn, and what was not expanded before and is expanded after that is expanded below it. -/
theorem expanded_mem_root (g : Graph) (hn : unseen.Nodup)
    (hi : i = root ∨ i ∈ unseen ∧ i ∉ (g.grow (unseen.erase root) (g.branches root)).rest) :
    g.expanded i ∈
      mentionsOf i ([(root, g.expanded root)] ++ belowMentions (g.grow (unseen.erase root) (g.branches root)).below) := by
  rw [mentionsOf_append]
  by_cases hroot : i = root
  · subst hroot
    exact List.mem_append_left _ (by simp [mentionsOf])
  · obtain ⟨hunseen, hseen⟩ := hi.resolve_left hroot
    obtain ⟨further, heq, -⟩ :=
      (mentioned_grow g (hn.erase root) (g.branches root) i).first ((List.mem_erase_of_ne hroot).2 hunseen) hseen
    rw [heq]
    exact List.mem_append_right _ (List.mem_cons_self ..)

/-- How often a token is expanded, if it has dependents. -/
def expansions (below : List (List (String × Int))) : Nat := below.countP (· ≠ [])

theorem expansions_append (l l' : List (List (String × Int))) : expansions (l ++ l') = expansions l + expansions l' := List.countP_append

/-- A root with dependents that was expanded before its turn is expanded, and once more if it was not expanded at the beginning. -/
theorem expansions_of_mem_again (g : Graph) (hn : unseen.Nodup) (hi : i ∈ g.again unseen roots) (hne : g.expanded i ≠ []) :
    1 + (if i ∈ unseen then 1 else 0) ≤ expansions (mentionsOf i ((g.growRoots unseen roots).1.flatMap Twig.mentions)) := by
  induction roots generalizing unseen with
  | nil => simp [again] at hi
  | cons root roots ih =>
    have hsub := (rest_grow g (unseen.erase root) (g.branches root)).trans List.erase_sublist
    have hpos : ∀ {l}, g.expanded i ∈ l → 1 ≤ expansions l := fun hm => List.countP_pos_iff.2 ⟨_, hm, by simpa using hne⟩
    rw [flatMap_mentions_growRoots, mentionsOf_append, expansions_append]
    rw [again] at hi
    rcases List.mem_append.1 hi with hi | hi
    · -- This is the root whose turn it is.
      split at hi
      · cases hi
      · rename_i hseen
        obtain rfl := List.mem_singleton.1 hi
        have hturn := hpos (expanded_mem_root g hn (.inl rfl))
        rw [if_neg hseen]
        omega
    · have hlater := ih (hn.sublist hsub) hi
      by_cases hunseen : i ∈ unseen
      · rw [if_pos hunseen]
        by_cases hrest : i ∈ (g.grow (unseen.erase root) (g.branches root)).rest
        · rw [if_pos hrest] at hlater
          omega
        · have hturn := hpos (expanded_mem_root g hn (.inr ⟨hunseen, hrest⟩))
          omega
      · rw [if_neg hunseen]
        omega

/-! ## What roots reach -/

/-- The branches of a token are edges that leave it. -/
theorem mem_edges_of_mem_branches {e : Edge} (he : e ∈ g.branches i) : e ∈ g.edges ∧ e.governor = i := by
  obtain ⟨p, hp, rfl⟩ := List.mem_map.1 (Scope.mem_of_mem_firstOfEach he)
  obtain ⟨f, hf, hp⟩ := List.mem_filterMap.1 (Order.mem_sortBy.1 hp)
  obtain ⟨t, -, rfl⟩ := Option.map_eq_some_iff.1 hp
  exact mem_followed (d := .down).1 hf

/-- For every edge that leaves a token, a branch has its dependent and its relation. -/
theorem Sound.exists_branch (hg : g.Sound) {e : Edge} (he : e ∈ g.edges) :
    ∃ f ∈ g.branches e.governor, f.dependent = e.dependent ∧ f.relation = e.relation := by
  have hdependent : e.dependent ∈ g.indices := hg.mem_indices_of_follows (d := .down) ⟨e, he, rfl, rfl⟩
  obtain ⟨t, ht⟩ := Option.isSome_iff_exists.1 (hasToken_iff.2 hdependent)
  refine Edge.exists_mem_firstOfEach Edge.dependent (List.mem_map.2 ⟨(e, t), Order.mem_sortBy.2 (List.mem_filterMap.2 ⟨e, ?_, ?_⟩), rfl⟩)
  · exact mem_followed (d := .down).2 ⟨he, rfl⟩
  · rw [ht]
    rfl

/-- What stands below a token where it is expanded is where its edges lead. -/
theorem Sound.leads_iff (hg : g.Sound) {j : Int} : g.Leads i j ↔ g.Follows .down i j := by
  constructor
  · rintro ⟨e, he, hto⟩
    obtain ⟨hstored, hfrom⟩ := mem_edges_of_mem_branches he
    exact ⟨e, hstored, hfrom, hto⟩
  · rintro ⟨e, he, rfl, rfl⟩
    obtain ⟨f, hf, hto, -⟩ := hg.exists_branch he
    exact ⟨f, hf, hto⟩

/-- Some tokens were not expanded so far: those that are not reached from the roots whose turn has come. -/
def Seen (g : Graph) (unseen done : List Int) : Prop :=
  ∀ i, i ∈ unseen ↔ i ∈ g.indices ∧ ¬ ∃ d ∈ done, g.Reaches .down d i

theorem seen_start (g : Graph) : Seen g g.indices [] := by
  intro i
  simp

/-- At the turn of a root everything is expanded that is reached from it. -/
theorem Seen.turn (h : Seen g unseen done) (hg : g.Sound) (hn : unseen.Nodup) (root : Int) :
    Seen g (g.grow (unseen.erase root) (g.branches root)).rest (done ++ [root]) := by
  have hcovers := covers_grow g (hn.erase root) (g.branches root)
  have hsub := (rest_grow g (unseen.erase root) (g.branches root)).subset
  generalize (g.grow (unseen.erase root) (g.branches root)).rest = rest at hcovers hsub ⊢
  have hstep : ∀ {i j}, i ∉ rest → g.Follows .down i j → j ∉ rest := by
    intro i j hi hj
    by_cases hir : i = root
    · subst hir
      obtain ⟨e, he, rfl⟩ := hg.leads_iff.2 hj
      exact hcovers.starts e he
    · by_cases hunseen : i ∈ unseen
      · exact hcovers.closed i ((List.mem_erase_of_ne hir).2 hunseen) hi j (hg.leads_iff.2 hj)
      · -- It was reached from an earlier root, and so is what it leads to.
        obtain ⟨d, hd, hway⟩ : ∃ d ∈ done, g.Reaches .down d i := by
          obtain ⟨e, he, rfl, -⟩ := hj
          obtain ⟨a, ha, rfl⟩ := mem_edges.1 he
          by_contra hno
          exact hunseen ((h _).2 ⟨hasToken_iff.1 (hg.ends a ha).1, hno⟩)
        intro hm
        exact ((h j).1 (List.mem_of_mem_erase (hsub hm))).2 ⟨d, hd, hway.tail hj⟩
  have hreached : ∀ {i}, g.Reaches .down root i → i ∉ rest := by
    intro i hway
    induction hway with
    | refl => exact fun hm => hn.not_mem_erase (hsub hm)
    | tail _ hj ih => exact hstep ih hj
  intro i
  constructor
  · intro hi
    obtain ⟨htoken, hno⟩ := (h i).1 (List.mem_of_mem_erase (hsub hi))
    refine ⟨htoken, ?_⟩
    rintro ⟨d, hd, hway⟩
    rcases List.mem_append.1 hd with hd | hd
    · exact hno ⟨d, hd, hway⟩
    · exact hreached (List.mem_singleton.1 hd ▸ hway) hi
  · rintro ⟨htoken, hno⟩
    have hunseen : i ∈ unseen := (h i).2 ⟨htoken, fun ⟨d, hd, hway⟩ => hno ⟨d, List.mem_append_left _ hd, hway⟩⟩
    have hself : root ∈ done ++ [root] := List.mem_append_right _ (List.mem_singleton_self root)
    have hne : i ≠ root := fun hir => hno ⟨root, hself, hir ▸ .refl⟩
    by_contra hm
    obtain ⟨e, he, hway⟩ := hcovers.reached i ((List.mem_erase_of_ne hne).2 hunseen) hm
    have hleads : ReflTransGen g.Leads root i := .head ⟨e, he, rfl⟩ hway
    exact hno ⟨root, hself, ReflTransGen.mono (fun _ _ hstep => hg.leads_iff.1 hstep) _ _ hleads⟩

/-- After all roots everything is expanded that is reached from one of them. -/
theorem Seen.growRoots (h : Seen g unseen done) (hg : g.Sound) (hn : unseen.Nodup) (roots : List Int) :
    Seen g (g.growRoots unseen roots).2 (done ++ roots) := by
  induction roots generalizing unseen done with
  | nil => rwa [List.append_nil]
  | cons root roots ih =>
    have hsub := (rest_grow g (unseen.erase root) (g.branches root)).trans List.erase_sublist
    have hlater := ih (h.turn hg hn root) (hn.sublist hsub)
    rwa [List.append_assoc] at hlater

/-- The roots that are expanded before their turn are those that are reached from an earlier one. -/
theorem Seen.forall_again_iff (h : Seen g unseen done) (hg : g.Sound) (hn : unseen.Nodup) (hroots : ∀ r ∈ roots, r ∈ g.indices)
    (p : Int → Prop) :
    (∀ r ∈ g.again unseen roots, p r) ↔
      (∀ r ∈ roots, (∃ d ∈ done, g.Reaches .down d r) → p r) ∧ roots.Pairwise fun a r => g.Reaches .down a r → p r := by
  induction roots generalizing unseen done with
  | nil => simp [again]
  | cons root roots ih =>
    obtain ⟨hroot, hroots⟩ := List.forall_mem_cons.1 hroots
    have hsub := (rest_grow g (unseen.erase root) (g.branches root)).trans List.erase_sublist
    have hlater := ih (h.turn hg hn root) (hn.sublist hsub) hroots
    have hturn : (∀ r ∈ if root ∈ unseen then [] else [root], p r) ↔ ((∃ d ∈ done, g.Reaches .down d root) → p root) := by
      split
      · rename_i hunseen
        simp only [List.not_mem_nil, false_implies, implies_true, true_iff]
        exact fun hreached => absurd hreached ((h root).1 hunseen).2
      · rename_i hseen
        have hreached : ∃ d ∈ done, g.Reaches .down d root := by
          by_contra hno
          exact hseen ((h root).2 ⟨hroot, hno⟩)
        simp [hreached]
    rw [again, List.forall_mem_append, hturn, hlater, List.forall_mem_cons, List.pairwise_cons]
    simp only [List.mem_append, List.mem_singleton, or_and_right, exists_or, exists_eq_left]
    constructor
    · rintro ⟨hp, hrest, hpairs⟩
      exact ⟨⟨hp, fun r hr hd => hrest r hr (.inl hd)⟩, fun r hr ha => hrest r hr (.inr ha), hpairs⟩
    · rintro ⟨⟨hp, hrest⟩, hroot, hpairs⟩
      exact ⟨hp, fun r hr hd => hd.elim (hrest r hr) (hroot r hr), hpairs⟩

/-! ## Edges in writing -/

/-- The governor, the relation and the dependent of an edge. -/
def bond (e : Edge) : Int × String × Int := (e.governor, e.relation, e.dependent)

/-- The edges whose governor is reached from a root, but for their weights and whether they are extra. -/
def reachedBonds (g : Graph) : Set (Int × String × Int) :=
  {b | ∃ e ∈ g.edges, (∃ r ∈ g.roots, g.Reaches .down r e.governor) ∧ bond e = b}

/-- Whether no root that has dependents is reached from an earlier one. -/
def RootsApart (g : Graph) : Prop := g.rootsInOrder.Pairwise fun a r => g.Reaches .down a r → g.branches r = []

/-- The edges below a token are those that leave it. -/
theorem Sound.mem_bonds (hg : g.Sound) {b : Int × String × Int} : b ∈ g.bonds i ↔ ∃ e ∈ g.edges, e.governor = i ∧ bond e = b := by
  simp only [bonds, expanded, List.mem_map]
  constructor
  · rintro ⟨-, ⟨e, he, rfl⟩, rfl⟩
    obtain ⟨hstored, rfl⟩ := mem_edges_of_mem_branches he
    exact ⟨e, hstored, rfl, rfl⟩
  · rintro ⟨e, he, rfl, rfl⟩
    obtain ⟨f, hf, hto, hrelation⟩ := hg.exists_branch he
    exact ⟨_, ⟨f, hf, rfl⟩, by rw [hto, hrelation]; rfl⟩

/-- No two of the first edges of each kind have an end and a relation in common. -/
theorem pairwise_firstOfEach (far : Edge → Int) (es : List Edge) :
    (Edge.firstOfEach far es).Pairwise fun e f => ¬ (far f = far e ∧ f.relation = e.relation) := by
  induction es with
  | nil => exact List.Pairwise.nil
  | cons e es ih =>
    refine List.pairwise_cons.2 ⟨fun f hf => ?_, ih.filter _⟩
    rintro ⟨hfar, hrelation⟩
    have hkept := (List.mem_filter.1 hf).2
    simp [hfar, hrelation] at hkept

/-- Below a token each edge stands once. -/
theorem nodup_bonds (g : Graph) (i : Int) : (g.bonds i).Nodup := by
  rw [bonds, expanded, List.map_map, List.Nodup, List.pairwise_map]
  refine (pairwise_firstOfEach Edge.dependent _).imp fun hne heq => hne ?_
  simp only [Function.comp_apply, Prod.mk.injEq] at heq
  exact ⟨heq.2.2.symm, heq.2.1.symm⟩

/-! ## The compact form -/

/-- The tokens of the compact form as they stand one after the other, each with the relations and the tokens directly below it. -/
def written (g : Graph) : List (Int × List (String × Int)) := g.twigs.flatMap Twig.mentions

/-- The tokens that are expanded in the compact form. -/
def met (g : Graph) : List Int := g.indices.filter (· ∉ (g.growRoots g.indices g.rootsInOrder).2)

/-- What is reached from a token of a sound graph is a token. -/
theorem Sound.mem_indices_of_reaches (hg : g.Sound) {r : Int} (hr : r ∈ g.indices) (hway : g.Reaches .down r i) : i ∈ g.indices := by
  induction hway with
  | refl => exact hr
  | tail _ hstep _ => exact hg.mem_indices_of_follows hstep

/-- The roots in order are tokens. -/
theorem Sound.mem_indices_of_mem_rootsInOrder (hg : g.Sound) : ∀ r ∈ g.rootsInOrder, r ∈ g.indices := by
  intro r hr
  exact hasToken_iff.1 (hg.roots r (hg.perm_rootsInOrder.mem_iff.1 hr))

/-- The tokens that are expanded are those that are reached from a root. -/
theorem Sound.mem_met (hg : g.Sound) : i ∈ g.met ↔ ∃ r ∈ g.roots, g.Reaches .down r i := by
  have hseen := (seen_start g).growRoots hg (nodup_of_ascending hg.ascending) g.rootsInOrder
  rw [List.nil_append] at hseen
  simp only [met, List.mem_filter, decide_eq_true_eq, hseen i, not_and, not_not, hg.perm_rootsInOrder.mem_iff]
  constructor
  · rintro ⟨htoken, hreached⟩
    exact hreached htoken
  · rintro ⟨r, hr, hway⟩
    exact ⟨hg.mem_indices_of_reaches (hasToken_iff.1 (hg.roots r hr)) hway, fun _ => ⟨r, hr, hway⟩⟩

/-- The compact form announces the edges of the tokens that are expanded, and once more those of the roots that are expanded again. -/
theorem Sound.perm_announced (hg : g.Sound) :
    (announced g.written).Perm (g.met.flatMap g.bonds ++ (g.again g.indices g.rootsInOrder).flatMap g.bonds) := by
  have hn := nodup_of_ascending hg.ascending
  have hall := perm_announced_growRoots g g.indices g.rootsInOrder
  have hsub := rest_growRoots g g.indices g.rootsInOrder
  rw [met]
  generalize (g.growRoots g.indices g.rootsInOrder).2 = rest at hall hsub ⊢
  have hrest : (g.indices.filter fun i => ! decide (i ∉ rest)).Perm rest := by
    refine (List.perm_ext_iff_of_nodup (hn.filter _) (hn.sublist hsub)).2 fun i => ?_
    simp only [List.mem_filter, decide_not, Bool.not_not, decide_eq_true_eq, and_iff_right_iff_imp]
    exact fun hi => hsub.subset hi
  have hsplit := ((List.filter_append_perm (fun i => decide (i ∉ rest)) g.indices).symm.trans (hrest.append_left _)).flatMap_right g.bonds
  rw [List.flatMap_append] at hsplit
  refine (List.perm_append_right_iff (rest.flatMap g.bonds)).1 ?_
  refine hall.trans ((hsplit.append_right _).trans ?_)
  rw [List.append_assoc, List.append_assoc]
  exact List.perm_append_comm.append_left _

/-- The edges of the tokens that are expanded. -/
theorem Sound.mem_flatMap_bonds_met (hg : g.Sound) {b : Int × String × Int} : b ∈ g.met.flatMap g.bonds ↔ b ∈ g.reachedBonds := by
  simp only [List.mem_flatMap, hg.mem_bonds, hg.mem_met]
  constructor
  · rintro ⟨i, hreached, e, he, rfl, rfl⟩
    exact ⟨e, he, hreached, rfl⟩
  · rintro ⟨e, he, hreached, rfl⟩
    exact ⟨e.governor, hreached, e, he, rfl, rfl⟩

/-- The edges of the tokens that are expanded, each once, are as many as the edges whose governor is reached. -/
theorem Sound.length_flatMap_bonds_met (hg : g.Sound) : (g.met.flatMap g.bonds).length = g.reachedBonds.ncard := by
  have hnodup : (g.met.flatMap g.bonds).Nodup := by
    refine List.nodup_flatMap.2 ⟨fun i _ => nodup_bonds g i, ?_⟩
    refine ((nodup_of_ascending hg.ascending).filter _).imp fun hne => ?_
    intro b hb hb'
    obtain ⟨e, -, hfrom, rfl⟩ := hg.mem_bonds.1 hb
    obtain ⟨f, -, hfrom', heq⟩ := hg.mem_bonds.1 hb'
    exact hne (hfrom.symm.trans ((Prod.mk.inj heq).1.symm.trans hfrom'))
  have hset : g.reachedBonds = ((g.met.flatMap g.bonds).toFinset : Set (Int × String × Int)) := by
    ext b
    rw [Finset.mem_coe, List.mem_toFinset, hg.mem_flatMap_bonds_met]
  rw [hset, Set.ncard_coe_finset, List.toFinset_card_of_nodup hnodup]

/-- The roots that are expanded again have no dependents exactly if no root that has any is reached from an earlier one. -/
theorem Sound.rootsApart_iff (hg : g.Sound) : g.RootsApart ↔ ∀ r ∈ g.again g.indices g.rootsInOrder, g.branches r = [] := by
  rw [(seen_start g).forall_again_iff hg (nodup_of_ascending hg.ascending) hg.mem_indices_of_mem_rootsInOrder]
  simp [RootsApart]

theorem expanded_eq_nil_iff : g.expanded i = [] ↔ g.branches i = [] := List.map_eq_nil_iff

theorem bonds_eq_nil_iff : g.bonds i = [] ↔ g.branches i = [] := List.map_eq_nil_iff.trans List.map_eq_nil_iff

/-- Every token that is reached from a root is expanded where it is met first and stays bare after that, exactly if no root that has
dependents is reached from an earlier one. -/
theorem Sound.expanded_first_iff (hg : g.Sound) :
    (∀ i, (∃ r ∈ g.roots, g.Reaches .down r i) →
        ∃ further, mentionsOf i g.written = g.expanded i :: further ∧ ∀ b ∈ further, b = []) ↔ g.RootsApart := by
  have hn := nodup_of_ascending hg.ascending
  rw [hg.rootsApart_iff]
  constructor
  · intro hfirst r hr
    by_contra hne
    have hexpanded : g.expanded r ≠ [] := fun h => hne (expanded_eq_nil_iff.1 h)
    have hroot : r ∈ g.rootsInOrder := again_subset g _ _ hr
    obtain ⟨further, heq, hbare⟩ := hfirst r ⟨r, hg.perm_rootsInOrder.mem_iff.1 hroot, .refl⟩
    have htwice := expansions_of_mem_again g hn hr hexpanded
    rw [if_pos (hg.mem_indices_of_mem_rootsInOrder r hroot)] at htwice
    change 2 ≤ expansions (mentionsOf r g.written) at htwice
    have hnone : further.countP (· ≠ []) = 0 := List.countP_eq_zero.2 fun b hb => by simp [hbare b hb]
    rw [heq, expansions, List.countP_cons, hnone] at htwice
    split at htwice <;> omega
  · intro hagain i hreached
    have hmentioned := mentioned_growRoots g hn (fun r hr => expanded_eq_nil_iff.2 (hagain r hr)) i
    obtain ⟨hi, hrest⟩ := List.mem_filter.1 (hg.mem_met.2 hreached)
    exact hmentioned.first hi (by simpa using hrest)

/-- The compact form of a rooted graph is the text of twigs in which every edge is announced whose governor is reached from a root, and no
other one. Every token that is reached from a root is expanded where it is met first and stays bare after that, and the announced edges
are as many as those edges, exactly if no root that has dependents is reached from an earlier one. -/
theorem compact_expands_once_iff (hg : g.Sound) (hroots : g.roots ≠ []) (showTags : Bool) :
    g.compact showTags = " ".intercalate (g.twigs.map (Twig.text g showTags)) ∧
      (∀ b, b ∈ announced g.written ↔ b ∈ g.reachedBonds) ∧
      ((∀ i, (∃ r ∈ g.roots, g.Reaches .down r i) →
          ∃ further, mentionsOf i g.written = g.expanded i :: further ∧ ∀ b ∈ further, b = []) ↔ g.RootsApart) ∧
      ((announced g.written).length = g.reachedBonds.ncard ↔ g.RootsApart) := by
  have hperm := hg.perm_announced
  refine ⟨compact_eq_text hg hroots showTags, fun b => ?_, hg.expanded_first_iff, ?_⟩
  · have hagain : b ∈ (g.again g.indices g.rootsInOrder).flatMap g.bonds → b ∈ g.met.flatMap g.bonds := by
      intro hb
      obtain ⟨r, hr, hb⟩ := List.mem_flatMap.1 hb
      have hroot := hg.perm_rootsInOrder.mem_iff.1 (again_subset g _ _ hr)
      exact List.mem_flatMap.2 ⟨r, hg.mem_met.2 ⟨r, hroot, .refl⟩, hb⟩
    rw [hperm.mem_iff, List.mem_append, or_iff_left_of_imp hagain, hg.mem_flatMap_bonds_met]
  · rw [hperm.length_eq, List.length_append, hg.length_flatMap_bonds_met, hg.rootsApart_iff]
    rw [Nat.add_eq_left, List.length_eq_zero_iff, List.flatMap_eq_nil_iff]
    simp only [bonds_eq_nil_iff]

/-- In a cycle, with a shared dependent, an extra edge and a root that is reached from the other one but has no dependents, every edge is
announced once. -/
theorem compact_expands_once_iff_cycle :
    let g : Graph :=
      { tokens := [(0, { index := 0, word := "a" }), (1, { index := 1, word := "b" }), (2, { index := 2, word := "c" }),
          (3, { index := 3, word := "d" })]
        arcs := [⟨4, ⟨0, 3, "w", .one, true⟩⟩, ⟨3, ⟨1, 2, "z", .one, false⟩⟩, ⟨2, ⟨0, 2, "z", .one, false⟩⟩,
          ⟨1, ⟨1, 0, "y", .one, false⟩⟩, ⟨0, ⟨0, 1, "x", .one, false⟩⟩]
        fresh := 5
        roots := [0, 3] }
    g.Sound ∧ g.roots ≠ [] ∧ g.RootsApart ∧ g.compact false = "[a x>[b y>a z>c] z>c w>d] d" ∧
      (∀ i, (∃ r ∈ g.roots, g.Reaches .down r i) →
        ∃ further, mentionsOf i g.written = g.expanded i :: further ∧ ∀ b ∈ further, b = []) ∧
      (announced g.written).length = 5 ∧ g.reachedBonds.ncard = 5 := by
  intro g
  have hg : g.Sound :=
    (sound_empty.run [.addToken { index := 0, word := "a" }, .addToken { index := 1, word := "b" },
      .addToken { index := 2, word := "c" }, .addToken { index := 3, word := "d" }, .addEdge ⟨0, 1, "x", .one, false⟩,
      .addEdge ⟨1, 0, "y", .one, false⟩, .addEdge ⟨0, 2, "z", .one, false⟩, .addEdge ⟨1, 2, "z", .one, false⟩,
      .addEdge ⟨0, 3, "w", .one, true⟩, .setRoots [0, 3]]).1
  have hroots : g.roots ≠ [] := by decide
  have horder : g.rootsInOrder = [0, 3] := by decide +kernel
  have hapart : g.RootsApart := by
    rw [RootsApart, horder]
    refine List.pairwise_pair.2 fun _ => ?_
    decide +kernel
  obtain ⟨-, -, hfirst, honce⟩ := compact_expands_once_iff hg hroots false
  have hannounced : (announced g.written).length = 5 := by decide +kernel
  exact ⟨hg, hroots, hapart, by decide +kernel, hfirst.2 hapart, hannounced, (honce.2 hapart).symm.trans hannounced⟩

/-- A root that has dependents and is reached from an earlier root is expanded twice, and its edges are announced twice. -/
theorem compact_repeats_root :
    let g : Graph :=
      { tokens := [(0, { index := 0, word := "a" }), (1, { index := 1, word := "b" }), (2, { index := 2, word := "c" })]
        arcs := [⟨1, ⟨1, 2, "y", .one, false⟩⟩, ⟨0, ⟨0, 1, "x", .one, false⟩⟩]
        fresh := 2
        roots := [0, 1] }
    g.Sound ∧ g.roots ≠ [] ∧ g.compact false = "[a x>[b y>c]] [b y>c]" ∧
      (¬ ∀ i, (∃ r ∈ g.roots, g.Reaches .down r i) →
        ∃ further, mentionsOf i g.written = g.expanded i :: further ∧ ∀ b ∈ further, b = []) ∧
      (announced g.written).length = 3 ∧ g.reachedBonds.ncard = 2 := by
  intro g
  have hg : g.Sound :=
    (sound_empty.run [.addToken { index := 0, word := "a" }, .addToken { index := 1, word := "b" },
      .addToken { index := 2, word := "c" }, .addEdge ⟨0, 1, "x", .one, false⟩, .addEdge ⟨1, 2, "y", .one, false⟩, .setRoots [0, 1]]).1
  have hmentions : mentionsOf 1 g.written = [[("y", 2)], [("y", 2)]] := by decide +kernel
  have hbonds : g.reachedBonds.ncard = 2 := hg.length_flatMap_bonds_met.symm.trans (by decide +kernel)
  refine ⟨hg, by decide, by decide +kernel, fun hfirst => ?_, by decide +kernel, hbonds⟩
  obtain ⟨further, heq, hbare⟩ := hfirst 1 ⟨1, by decide, .refl⟩
  rw [hmentions] at heq
  obtain ⟨-, rfl⟩ := List.cons.inj heq
  simpa using hbare _ (List.mem_singleton_self _)

end Treebank.Graph

import Treebank.Proofs.Graph.Content
import Mathlib.Data.List.Forall2

/-!
# Graphs that are alike

Graphs are alike if the same indices have tokens of the same places and attributes, if the same tokens are roots, and if the edges of
every token come in the same order, each standing for one of the other graph (`Alike`). Nothing is said of slots, of the order in
which edges were attached, or of what else a token holds. Graphs with one signature are alike if the attributes of their tokens agree
(`alike_of_same`); graphs with one content have one signature unless edges differ in weight alone (`same_of_content_eq`).
-/

namespace Treebank

/-! ## Lists of edges -/

/-- Leaving out edges with an end and a relation in common with an earlier one, if neither end nor relation tells edges apart that
stand for each other. -/
theorem Edge.forall₂_firstOfEach {R : Edge → Edge → Prop} {far : Edge → Int} (hR : ∀ {a b}, R a b → a.outline = b.outline)
    (hfar : ∀ {a b}, R a b → far a = far b) {es fs : List Edge} (he : List.Forall₂ R es fs) :
    List.Forall₂ R (firstOfEach far es) (firstOfEach far fs) := by
  induction he with
  | nil => exact .nil
  | @cons e f es fs hef _ ih =>
    refine .cons hef (Order.filter_of_forall₂ (fun a b hab => ?_) ih)
    have ha := (outline_eq_iff.1 (hR hab)).2.2.1
    have hf := (outline_eq_iff.1 (hR hef)).2.2.1
    rw [hfar hab, hfar hef, ha, hf]

/-! ## Likeness -/

/-- Tokens that nothing tells apart that looks at places and attributes. -/
structure Token.Alike (t u : Token) : Prop where
  index : t.index = u.index
  position : t.position = u.position
  emptyIndex : t.emptyIndex = u.emptyIndex
  attributes : ∀ key, t.attribute? key = u.attribute? key

namespace Token

/-- Tokens that are alike stand at one place. -/
theorem cmp_congr {t u t' u' : Token} (h : t.Alike u) (h' : t'.Alike u') : cmp t t' = cmp u u' := by
  simp only [cmp, compareLex, compareOn, h.position, h'.position, h.emptyIndex, h'.emptyIndex, h.index, h'.index]

/-- Tokens that are alike are elided together. -/
theorem isEmptyNode_congr {t u : Token} (h : t.Alike u) : t.isEmptyNode = u.isEmptyNode := by
  rw [isEmptyNode, isEmptyNode, h.emptyIndex]

end Token

namespace Graph

/-- Entries of alike tokens under one index. -/
def EntryAlike (x y : Int × Token) : Prop := x.1 = y.1 ∧ x.2.Alike y.2

/-- Graphs that nothing tells apart that looks at places, attributes, roots and the order of the edges of a token; `R` says which
edges stand for each other. -/
structure Alike (R : Edge → Edge → Prop) (g h : Graph) : Prop where
  outline : ∀ {a b}, R a b → a.outline = b.outline
  tokens : List.Forall₂ EntryAlike g.tokens h.tokens
  roots : g.roots = h.roots
  outgoing : ∀ index, List.Forall₂ R (g.outgoing index) (h.outgoing index)
  incoming : ∀ index, List.Forall₂ R (g.incoming index) (h.incoming index)

/-- What storage keeps of a graph, even where the fields of a token are assigned: tokens are listed by ascending key, no two edges are
equal, and roots are listed in ascending order. -/
structure Orderly (g : Graph) : Prop where
  ascending : g.indices.Pairwise (· < ·)
  distinct : g.arcs.Pairwise fun a b => ¬ a.edge.same b.edge
  rootsAscending : g.roots.Pairwise (· < ·)

/-- Whether graphs have tokens under the same indices, with the same value of every attribute. -/
def Agrees (g h : Graph) : Prop :=
  ∀ index, Option.Rel (fun t u : Token => ∀ key, t.attribute? key = u.attribute? key) (g.token? index) (h.token? index)

/-- Whether no two edges of a graph differ in weight alone: those of one outline are equal. -/
def WeightBlind (g : Graph) : Prop := ∀ a ∈ g.arcs, ∀ b ∈ g.arcs, a.edge.outline = b.edge.outline → a.edge.same b.edge

variable {R S : Edge → Edge → Prop} {g h : Graph}

/-- Sound graphs are orderly. -/
theorem Sound.orderly (hg : g.Sound) : g.Orderly := ⟨hg.ascending, hg.distinct, hg.rootsAscending⟩

/-- In an orderly graph a token is found exactly if its entry stands in the list. -/
theorem Orderly.token?_eq_some_iff (hg : g.Orderly) {index : Int} {t : Token} : g.token? index = some t ↔ (index, t) ∈ g.tokens :=
  Pairs.lookup_eq_some_iff_mem (nodup_of_ascending hg.ascending)

/-- Ascending lists with the same members are one list. -/
theorem eq_of_ascending {l l' : List Int} (hl : l.Pairwise (· < ·)) (hl' : l'.Pairwise (· < ·)) (hm : ∀ n, n ∈ l ↔ n ∈ l') :
    l = l' := by
  have hperm : l.Perm l' := (List.perm_ext_iff_of_nodup (nodup_of_ascending hl) (nodup_of_ascending hl')).2 hm
  exact List.Perm.eq_of_pairwise (fun x y _ _ hxy hyx => absurd hxy (by omega)) hl hl' hperm

/-! ## What alike graphs have in common -/

namespace Alike

/-- Alike graphs have alike tokens under one index. -/
theorem token? (hA : Alike R g h) (index : Int) : Option.Rel Token.Alike (g.token? index) (h.token? index) :=
  Pairs.rel_lookup hA.tokens index

/-- Alike graphs have one list of indices. -/
theorem indices (hA : Alike R g h) : g.indices = h.indices :=
  Order.map_eq_of_forall₂ (fun _ _ hxy => hxy.1) hA.tokens

/-- Alike graphs have tokens under the same indices. -/
theorem hasToken (hA : Alike R g h) (index : Int) : g.hasToken index = h.hasToken index := by
  unfold Graph.hasToken
  rcases Pairs.rel_cases (hA.token? index) with ⟨hg, hh⟩ | ⟨t, u, hg, hh, -⟩ <;> rw [hg, hh]
  rfl

/-- Alike graphs have one set of roots. -/
theorem isRoot (hA : Alike R g h) (index : Int) : g.isRoot index = h.isRoot index := by
  rw [Graph.isRoot, Graph.isRoot, hA.roots]

/-- Edges that stand for each other lead to one place. -/
theorem map_dependent (hA : Alike R g h) {es fs : List Edge} (he : List.Forall₂ R es fs) :
    es.map (·.dependent) = fs.map (·.dependent) := by
  refine Order.map_eq_of_forall₂ (fun a b hab => ?_) he
  exact (Edge.outline_eq_iff.1 (hA.outline hab)).2.1

/-- Edges that stand for each other come from one place. -/
theorem map_governor (hA : Alike R g h) {es fs : List Edge} (he : List.Forall₂ R es fs) :
    es.map (·.governor) = fs.map (·.governor) := by
  refine Order.map_eq_of_forall₂ (fun a b hab => ?_) he
  exact (Edge.outline_eq_iff.1 (hA.outline hab)).1

/-- Tokens of alike graphs have the same dependents. -/
theorem children (hA : Alike R g h) (index : Int) : g.children index = h.children index := by
  rw [Graph.children, Graph.children, hA.map_dependent (hA.outgoing index)]

/-- Tokens of alike graphs have the same governors. -/
theorem parents (hA : Alike R g h) (index : Int) : g.parents index = h.parents index := by
  rw [Graph.parents, Graph.parents, hA.map_governor (hA.incoming index)]

/-- The tokens of some indices in alike graphs, sorted by place. -/
theorem sortedEntries (hA : Alike R g h) (indices : List Int) :
    List.Forall₂ EntryAlike
      (Order.sortBy (fun a b => Token.cmp a.2 b.2) (indices.filterMap fun i => (g.token? i).map (i, ·)))
      (Order.sortBy (fun a b => Token.cmp a.2 b.2) (indices.filterMap fun i => (h.token? i).map (i, ·))) := by
  refine Order.forall₂_sortBy (fun _ _ _ _ hab hab' => Token.cmp_congr hab.2 hab'.2) ?_
  refine List.rel_filterMap (R := Eq) (fun i j hij => ?_) (List.forall₂_refl _)
  subst hij
  rcases Pairs.rel_cases (hA.token? i) with ⟨hg, hh⟩ | ⟨t, u, hg, hh, htu⟩ <;> rw [hg, hh]
  · exact .none
  · exact .some ⟨rfl, htu⟩

/-- Edges may stand for each other in a stricter sense if those of the two graphs do. -/
theorem strengthen (hA : Alike R g h) (hS : ∀ {a b}, S a b → a.outline = b.outline)
    (hRS : ∀ a ∈ g.arcs, ∀ b ∈ h.arcs, R a.edge b.edge → S a.edge b.edge) : Alike S g h := by
  have edge : ∀ {es fs : List Edge}, List.Forall₂ R es fs → (∀ e ∈ es, ∃ a ∈ g.arcs, a.edge = e) →
      (∀ f ∈ fs, ∃ b ∈ h.arcs, b.edge = f) → List.Forall₂ S es fs := by
    intro es fs he hes hfs
    induction he with
    | nil => exact .nil
    | cons hab _ ih =>
      obtain ⟨⟨a, ha, rfl⟩, hes'⟩ := List.forall_mem_cons.1 hes
      obtain ⟨⟨b, hb, rfl⟩, hfs'⟩ := List.forall_mem_cons.1 hfs
      exact .cons (hRS a ha b hb hab) (ih hes' hfs')
  have among : ∀ {g : Graph} {p : Arc → Bool} {cmp : Edge → Edge → Ordering},
      ∀ e ∈ Order.sortBy cmp ((g.arcs.filter p).map (·.edge)), ∃ a ∈ g.arcs, a.edge = e := by
    intro g p cmp e he
    obtain ⟨a, ha, rfl⟩ := List.mem_map.1 (Order.mem_sortBy.1 he)
    exact ⟨a, (List.mem_filter.1 ha).1, rfl⟩
  exact ⟨hS, hA.tokens, hA.roots, fun index => edge (hA.outgoing index) among among,
    fun index => edge (hA.incoming index) among among⟩

end Alike

/-! ## Graphs with one signature -/

/-- The outlines of the edges by slot are those of the stored edges. -/
theorem perm_outlines_bySlot (g : Graph) : (g.edgesBySlot.map Edge.outline).Perm (g.arcs.map fun a => a.edge.outline) := by
  rw [edgesBySlot, List.map_map]
  exact (Order.perm_sortBy (compareOn Arc.slot) g.arcs).map _

/-- The outlines of all edges in order are those of the stored edges. -/
theorem perm_outlines (g : Graph) : (g.edges.map Edge.outline).Perm (g.arcs.map fun a => a.edge.outline) :=
  ((Order.perm_sortBy Edge.cmp g.edgesBySlot).map Edge.outline).trans g.perm_outlines_bySlot

/-- Equal graphs have the same outlines of edges, as often. -/
theorem perm_outlines_of_same (hs : g.same h) :
    (g.arcs.map fun a => a.edge.outline).Perm (h.arcs.map fun a => a.edge.outline) := by
  have he : g.edges.map Edge.outline = h.edges.map Edge.outline := congrArg Signature.edges (eq_of_beq hs)
  have hg := g.perm_outlines
  rw [he] at hg
  exact hg.symm.trans h.perm_outlines

/-- Edges that are picked by their outlines and sorted by them come in one order from graphs with the same outlines. -/
theorem forall₂_edges_of_perm (hp : (g.arcs.map fun a => a.edge.outline).Perm (h.arcs.map fun a => a.edge.outline))
    {cmp : Edge → Edge → Ordering} [Std.TransCmp cmp] {p : Edge → Bool} (q : Int × Int × String × Bool → Bool)
    (hpq : ∀ e : Edge, p e = q e.outline)
    (hc : ∀ a b a' b' : Edge, a.outline = b.outline → a'.outline = b'.outline → cmp a a' = cmp b b')
    (heq : ∀ a b : Edge, p a → p b → cmp a b = .eq → a.outline = b.outline) :
    List.Forall₂ (fun a b => a.outline = b.outline) (Order.sortBy cmp ((g.arcs.filter fun a => p a.edge).map (·.edge)))
      (Order.sortBy cmp ((h.arcs.filter fun a => p a.edge).map (·.edge))) := by
  have hpick : ∀ g : Graph, ((g.arcs.filter fun a => p a.edge).map (·.edge)).map Edge.outline =
      (g.arcs.map fun a => a.edge.outline).filter q := fun g => by
    rw [List.map_map, List.filter_map]
    exact congrArg (List.map _) (List.filter_congr fun a _ => hpq a.edge)
  have hmem : ∀ {g : Graph} {e : Edge}, e ∈ (g.arcs.filter fun a => p a.edge).map (·.edge) → p e := by
    rintro g e he
    obtain ⟨a, ha, rfl⟩ := List.mem_map.1 he
    exact (List.mem_filter.1 ha).2
  have hpicked := hp.filter q
  rw [← hpick g, ← hpick h] at hpicked
  have hsort := Order.map_sortBy_eq_of_perm hc hpicked fun a ha b hb e => heq a b (hmem ha) (hmem hb) e
  rw [← List.forall₂_eq_eq_eq, List.forall₂_map_left_iff, List.forall₂_map_right_iff] at hsort
  exact hsort

/-- Tokens under the same keys are alike if index, places and attributes are. -/
theorem forall₂_tokens {l l' : List (Int × Token)} (hkeys : l.map (·.1) = l'.map (·.1))
    (hsee : l.map (fun x => (x.2.index, x.2.position, x.2.emptyIndex)) =
      l'.map fun y => (y.2.index, y.2.position, y.2.emptyIndex))
    (hattr : ∀ x ∈ l, ∀ y ∈ l', x.1 = y.1 → ∀ key, x.2.attribute? key = y.2.attribute? key) :
    List.Forall₂ EntryAlike l l' := by
  induction l generalizing l' with
  | nil =>
    obtain rfl := List.map_eq_nil_iff.1 hkeys.symm
    exact .nil
  | cons x l ih =>
    obtain ⟨y, l', rfl, hkey, hkeys⟩ := List.map_eq_cons_iff.1 hkeys.symm
    simp only [List.map_cons, List.cons.injEq, Prod.mk.injEq] at hsee
    obtain ⟨⟨hindex, hposition, hempty⟩, hsee⟩ := hsee
    have hattr' := hattr x (List.mem_cons_self ..) y (List.mem_cons_self ..) hkey.symm
    refine .cons ⟨hkey.symm, hindex, hposition, hempty, hattr'⟩ (ih hkeys.symm hsee ?_)
    intro x hx y hy
    exact hattr x (List.mem_cons_of_mem _ hx) y (List.mem_cons_of_mem _ hy)

/-- Equal graphs are alike if they have tokens under the same indices and the attributes of these agree; edges stand for those of
one outline. -/
theorem alike_of_same (hg : g.Orderly) (hh : h.Orderly) (hs : g.same h) (hagree : g.Agrees h) :
    Alike (fun a b => a.outline = b.outline) g h where
  outline := id
  tokens := by
    have hkeys : g.indices = h.indices := by
      refine eq_of_ascending hg.ascending hh.ascending fun index => ?_
      rw [← hasToken_iff, ← hasToken_iff, Graph.hasToken, Graph.hasToken]
      rcases Pairs.rel_cases (hagree index) with ⟨ht, hu⟩ | ⟨t, u, ht, hu, -⟩ <;> rw [ht, hu]
      exact Iff.rfl
    have hsee : g.tokenList.map (fun t => (t.index, t.word, t.baseForm, t.tag, t.position, t.emptyIndex)) =
        h.tokenList.map fun t => (t.index, t.word, t.baseForm, t.tag, t.position, t.emptyIndex) :=
      congrArg Signature.tokens (eq_of_beq hs)
    have hplaces := congrArg (List.map fun p => (p.1, p.2.2.2.2.1, p.2.2.2.2.2)) hsee
    simp only [tokenList, List.map_map] at hplaces
    refine forall₂_tokens hkeys hplaces ?_
    rintro ⟨i, t⟩ hx ⟨j, u⟩ hy hij
    obtain rfl : i = j := hij
    have hrel := hagree i
    rw [hg.token?_eq_some_iff.2 hx, hh.token?_eq_some_iff.2 hy] at hrel
    cases hrel with
    | some h => exact h
  roots := congrArg Signature.roots (eq_of_beq hs)
  outgoing index := forall₂_edges_of_perm (perm_outlines_of_same hs) (fun o => o.1 == index) (fun _ => rfl)
    (fun _ _ _ _ => Edge.cmpDependent_congr) fun _ _ ha hb =>
      Edge.outline_of_cmpDependent ((eq_of_beq ha).trans (eq_of_beq hb).symm)
  incoming index := forall₂_edges_of_perm (perm_outlines_of_same hs) (fun o => o.2.1 == index) (fun _ => rfl)
    (fun _ _ _ _ => Edge.cmpGovernor_congr) fun _ _ ha hb =>
      Edge.outline_of_cmpGovernor ((eq_of_beq ha).trans (eq_of_beq hb).symm)

/-! ## Graphs with one content -/

/-- Graphs with the same tokens list them alike. -/
theorem tokens_eq_of_content_eq (hg : g.Orderly) (hh : h.Orderly) (hc : g.content = h.content) : g.tokens = h.tokens := by
  have hlook : ∀ index, g.token? index = h.token? index := fun index => congrFun (congrArg Content.token hc) index
  have hnodup : ∀ {g : Graph}, g.Orderly → g.tokens.Nodup := fun hg => (nodup_of_ascending hg.ascending).of_map
  have hperm : g.tokens.Perm h.tokens := by
    refine (List.perm_ext_iff_of_nodup (hnodup hg) (hnodup hh)).2 fun x => ?_
    rw [← hg.token?_eq_some_iff, ← hh.token?_eq_some_iff, hlook]
  have hasc : ∀ {g : Graph}, g.Orderly → g.tokens.Pairwise fun x y => x.1 < y.1 := fun hg => List.pairwise_map.1 hg.ascending
  exact List.Perm.eq_of_pairwise (fun x y _ _ hxy hyx => absurd hxy (by omega)) (hasc hg) (hasc hh) hperm

/-- Graphs with the same roots list them alike. -/
theorem roots_eq_of_content_eq (hg : g.Orderly) (hh : h.Orderly) (hc : g.content = h.content) : g.roots = h.roots :=
  eq_of_ascending hg.rootsAscending hh.rootsAscending fun index => iff_of_eq (congrFun (congrArg Content.roots hc) index)

/-- Every edge of a graph is equal to an edge of a graph with the same content. -/
theorem exists_same_of_content_eq (hc : g.content = h.content) {a : Arc} (ha : a ∈ g.arcs) : ∃ b ∈ h.arcs, b.edge.same a.edge :=
  mem_edges_content.1 (hc ▸ mem_edges_content.2 ⟨a, ha, Edge.same_refl _⟩)

/-- Edges of graphs with one content that have one outline are equal. -/
theorem WeightBlind.same_of_outline (hw : g.WeightBlind) (hc : g.content = h.content) {a b : Arc} (ha : a ∈ g.arcs)
    (hb : b ∈ h.arcs) (e : a.edge.outline = b.edge.outline) : a.edge.same b.edge := by
  obtain ⟨c, hcg, hcb⟩ := exists_same_of_content_eq hc.symm hb
  exact Edge.same_trans (hw a ha c hcg (e.trans (Edge.outline_of_same hcb).symm)) hcb

/-- A graph is blind to weights if a graph of the same content is. -/
theorem WeightBlind.of_content_eq (hw : g.WeightBlind) (hc : g.content = h.content) : h.WeightBlind := by
  intro a ha b hb e
  obtain ⟨c, hcg, hca⟩ := exists_same_of_content_eq hc.symm ha
  exact Edge.same_trans ((Edge.same_comm _ _).1 hca) (hw.same_of_outline hc hcg hb ((Edge.outline_of_same hca).trans e))

/-- Where no edges differ in weight alone, no outline comes twice. -/
theorem WeightBlind.nodup_outlines (hg : g.Orderly) (hw : g.WeightBlind) : (g.arcs.map fun a => a.edge.outline).Nodup := by
  refine List.pairwise_map.2 (hg.distinct.imp_of_mem fun ha hb hab e => hab (hw _ ha _ hb e))

/-- Graphs with the same tokens agree on attributes. -/
theorem agrees_of_token?_eq (ht : g.token? = h.token?) : g.Agrees h := by
  intro index
  rw [ht]
  cases h.token? index with
  | none => exact .none
  | some t => exact .some fun _ => rfl

/-- Graphs with one content agree on attributes. -/
theorem agrees_of_content_eq (hc : g.content = h.content) : g.Agrees h := agrees_of_token?_eq (congrArg Content.token hc)

/-- Graphs with one content are equal if no edges differ in weight alone. -/
theorem same_of_content_eq (hg : g.Orderly) (hh : h.Orderly) (hc : g.content = h.content) (hw : g.WeightBlind) : g.same h := by
  have hperm : (g.arcs.map fun a => a.edge.outline).Perm (h.arcs.map fun a => a.edge.outline) := by
    refine (List.perm_ext_iff_of_nodup (hw.nodup_outlines hg) ((hw.of_content_eq hc).nodup_outlines hh)).2 fun o => ?_
    have half : ∀ {g h : Graph}, g.content = h.content → (∃ a ∈ g.arcs, a.edge.outline = o) → ∃ b ∈ h.arcs, b.edge.outline = o := by
      rintro g h hc ⟨a, ha, rfl⟩
      obtain ⟨b, hb, hba⟩ := exists_same_of_content_eq hc ha
      exact ⟨b, hb, Edge.outline_of_same hba⟩
    rw [List.mem_map, List.mem_map]
    exact ⟨half hc, half hc.symm⟩
  have hedges : g.edges.map Edge.outline = h.edges.map Edge.outline :=
    Order.map_sortBy_eq_of_perm (fun _ _ _ _ => Edge.cmp_congr)
      (g.perm_outlines_bySlot.trans (hperm.trans h.perm_outlines_bySlot.symm)) fun a _ b _ => Edge.outline_of_cmp
  have htokens := tokens_eq_of_content_eq hg hh hc
  refine beq_iff_eq.2 (?_ : g.signature = h.signature)
  rw [signature, signature, tokenList, tokenList, htokens, roots_eq_of_content_eq hg hh hc]
  exact congrArg (Signature.mk _ · _) hedges

end Graph

end Treebank

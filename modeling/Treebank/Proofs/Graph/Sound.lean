import Treebank.Graph.Operation
import Treebank.Proofs.Edge
import Treebank.Proofs.Order
import Treebank.Proofs.Pairs
import Mathlib.Data.List.Nodup
import Mathlib.Data.List.Pairwise

/-!
# Sound graphs

What every operation keeps true of a graph: tokens stand under their indices, edges lead from tokens to tokens, no two edges are
equal, the slots of the edges and the free slots are the numbers that were ever used, and roots are tokens.
-/

namespace Treebank.Graph

/-- The used and the free numbers are those below the first fresh one, each once. -/
def Numbering (used free : List Nat) (fresh : Nat) : Prop := (used ++ free).Perm (List.range fresh)

/-- What every operation on graphs keeps. -/
structure Sound (g : Graph) : Prop where
  /-- Tokens are listed by ascending index. -/
  ascending : g.indices.Pairwise (· < ·)
  /-- Every token stands under its index. -/
  placed : ∀ index t, g.token? index = some t → t.index = index
  /-- Both ends of an edge are tokens. -/
  ends : ∀ a ∈ g.arcs, g.hasToken a.edge.governor ∧ g.hasToken a.edge.dependent
  /-- No two edges are equal. -/
  distinct : g.arcs.Pairwise fun a b => ¬ a.edge.same b.edge
  /-- Slots are used once. -/
  slots : Numbering (g.arcs.map (·.slot)) g.free g.fresh
  /-- Roots are listed in ascending order. -/
  rootsAscending : g.roots.Pairwise (· < ·)
  /-- Roots are tokens. -/
  roots : ∀ index ∈ g.roots, g.hasToken index

/-! ## Numbering -/

namespace Numbering

variable {used free : List Nat} {fresh n : Nat}

/-- A used number is used once. -/
theorem nodup_used (h : Numbering used free fresh) : used.Nodup :=
  (List.nodup_append.1 (h.nodup_iff.2 List.nodup_range)).1

/-- Used numbers are not free. -/
theorem notMem_used (h : Numbering used (n :: free) fresh) : n ∉ used := fun hn =>
  (List.nodup_append.1 (h.nodup_iff.2 List.nodup_range)).2.2 n hn n (List.mem_cons_self ..) rfl

/-- Used numbers are below the fresh one. -/
theorem lt_fresh (h : Numbering used free fresh) (hn : n ∈ used) : n < fresh :=
  List.mem_range.1 (h.mem_iff.1 (List.mem_append_left free hn))

/-- Using a free number again. -/
theorem reuse (h : Numbering used (n :: free) fresh) : Numbering (n :: used) free fresh :=
  (List.perm_middle.symm.trans h : (n :: (used ++ free)).Perm _)

/-- Using a fresh number. -/
theorem extend (h : Numbering used [] fresh) : Numbering (fresh :: used) [] (fresh + 1) := by
  have h : used.Perm (List.range fresh) := by simpa [Numbering] using h
  rw [Numbering, List.append_nil, List.range_succ]
  exact (h.cons fresh).trans (List.perm_append_singleton fresh _).symm

/-- Freeing a used number. -/
theorem release (h : Numbering used free fresh) (hn : n ∈ used) : Numbering (used.filter (· != n)) (n :: free) fresh := by
  have he : used.filter (· != n) = used.erase n := (h.nodup_used.erase_eq_filter n).symm
  rw [Numbering, he]
  exact List.perm_middle.trans (((List.perm_cons_erase hn).symm.append_right free).trans h)

/-- Freeing used numbers one after the other. -/
theorem releaseAll {ns : List Nat} (h : Numbering used free fresh) (hns : ns.Nodup) (hu : ∀ n ∈ ns, n ∈ used) :
    Numbering (used.filter fun n => !ns.contains n) (ns.reverse ++ free) fresh := by
  induction ns generalizing used free with
  | nil => simpa using h
  | cons n ns ih =>
    rw [List.nodup_cons] at hns
    have h1 := ih (h.release (hu n (List.mem_cons_self ..))) hns.2 fun m hm =>
      List.mem_filter.2 ⟨hu m (List.mem_cons_of_mem n hm), by
        rw [bne_iff_ne]
        rintro rfl
        exact hns.1 hm⟩
    rw [List.filter_filter] at h1
    have he : (used.filter fun m => !ns.contains m && m != n) = used.filter fun m => !(n :: ns).contains m := by
      refine List.filter_congr fun m _ => ?_
      rw [List.contains_cons, Bool.not_or, Bool.and_comm]
      rfl
    rwa [he, List.append_cons, ← List.reverse_cons] at h1

end Numbering

/-! ## Tokens -/

variable {g g' : Graph}

/-- An index has a token exactly if it is listed. -/
theorem hasToken_iff {index : Int} : g.hasToken index ↔ index ∈ g.indices := Pairs.isSome_lookup_iff

/-- Graphs with the same token table have tokens under the same indices. -/
theorem hasToken_congr {g g' : Graph} (h : g.tokens = g'.tokens) (i : Int) : g.hasToken i = g'.hasToken i := by
  unfold hasToken token?
  rw [h]

/-- The edges of a graph are those of its slots. -/
theorem mem_edges {e : Edge} : e ∈ g.edges ↔ ∃ a ∈ g.arcs, a.edge = e := by
  simp only [edges, edgesBySlot, Order.mem_sortBy, List.mem_map]

/-- A token is found exactly if its entry stands in the list. -/
theorem Sound.token?_eq_some_iff (h : g.Sound) {index : Int} {t : Token} :
    g.token? index = some t ↔ (index, t) ∈ g.tokens :=
  Pairs.lookup_eq_some_iff_mem (nodup_of_ascending h.ascending)

/-- A token that is placed anew keeps its index. -/
theorem index_placed (t : Token) : t.placed.index = t.index := by
  unfold Token.placed
  split <;> rfl

/-- A copy has its tokens under the same indices. -/
theorem token?_copy (g : Graph) (index : Int) : g.copy.token? index = (g.token? index).map Token.placed :=
  Pairs.lookup_map g.tokens (fun _ t => t.placed) index

/-- The index above all indices has no token. -/
theorem Sound.lt_nextIndex (h : g.Sound) {index : Int} (hi : g.hasToken index) : index < g.nextIndex := by
  rw [hasToken_iff] at hi
  unfold nextIndex
  rcases List.eq_nil_or_concat g.tokens with e | ⟨init, p, e⟩
  · simp [indices, e] at hi
  · have ha := h.ascending
    simp only [indices, e, List.concat_eq_append, List.map_append, List.map_cons, List.map_nil, List.mem_append,
      List.mem_singleton, List.pairwise_append] at ha hi
    simp only [e, List.concat_eq_append, List.getLast?_append, List.getLast?_singleton, Option.some_or]
    rcases hi with hi | rfl
    · have := ha.2.2 index hi p.1 rfl
      omega
    · omega

theorem Sound.hasToken_nextIndex (h : g.Sound) : g.hasToken g.nextIndex = false :=
  Bool.eq_false_iff.2 fun hn => absurd (h.lt_nextIndex hn) (Int.lt_irrefl _)

/-- The empty graph is sound. -/
theorem sound_empty : Sound {} where
  ascending := List.Pairwise.nil
  placed := by simp [token?]
  ends := by simp
  distinct := List.Pairwise.nil
  slots := List.Perm.refl _
  rootsAscending := List.Pairwise.nil
  roots := by simp

/-! ## What operations do

One lemma for each operation: when it succeeds, and what it makes of the graph. -/

/-- A token is added under an index that is new. -/
theorem addToken_eq_ok {t : Token} (e : g.addToken t = .ok g') :
    g.hasToken t.index = false ∧ g' = { g with tokens := putEntry t.index t g.tokens } := by
  unfold addToken at e
  split at e
  · cases e
  · rename_i h
    cases e
    exact ⟨by simpa using h, rfl⟩

/-- An edge is added between tokens, in a free slot or else in a fresh one, unless it is there. -/
theorem addEdge_eq_ok {e : Edge} (h : g.addEdge e = .ok g') :
    g.hasToken e.governor ∧ g.hasToken e.dependent ∧
      (g.contains e ∧ g' = g ∨
        g.contains e = false ∧
          ((∃ slot free, g.free = slot :: free ∧ g' = { g with arcs := ⟨slot, e⟩ :: g.arcs, free := free }) ∨
            g.free = [] ∧ g' = { g with arcs := ⟨g.fresh, e⟩ :: g.arcs, fresh := g.fresh + 1 })) := by
  unfold addEdge at h
  split at h
  · cases h
  · rename_i hg
    split at h
    · cases h
    · rename_i hd
      refine ⟨by simpa using hg, by simpa using hd, ?_⟩
      split at h
      · rename_i hc
        cases h
        exact Or.inl ⟨hc, rfl⟩
      · rename_i hc
        refine Or.inr ⟨by simpa using hc, ?_⟩
        split at h
        · rename_i slot free hf
          cases h
          exact Or.inl ⟨slot, free, hf, rfl⟩
        · rename_i hf
          cases h
          exact Or.inr ⟨hf, rfl⟩

theorem tokens_withEdge (g : Graph) (e : Edge) : (g.withEdge e).tokens = g.tokens := by
  unfold withEdge
  cases h : g.addEdge e with
  | error fault => rfl
  | ok g' => obtain ⟨-, -, ⟨-, rfl⟩ | ⟨-, ⟨slot, free, -, rfl⟩ | ⟨-, rfl⟩⟩⟩ := addEdge_eq_ok h <;> rfl

/-- An edge that is removed is stored, and its slot becomes free. -/
theorem removeEdge_eq_ok {e : Edge} (h : g.removeEdge e = .ok g') :
    ∃ a ∈ g.arcs, a.edge.same e ∧
      g' = { g with arcs := g.arcs.filter (·.slot != a.slot), free := a.slot :: g.free } := by
  unfold removeEdge at h
  split at h
  · rename_i a ha
    cases h
    refine ⟨a, List.mem_of_find?_eq_some ha, List.find?_some (p := fun a : Arc => a.edge.same e) ha, ?_⟩
    have e : (fun b : Arc => !([a.slot].contains b.slot)) = fun b => b.slot != a.slot := by
      funext b
      rw [List.contains_cons, List.contains_nil, Bool.or_false]
      rfl
    rw [freeSlots, e, List.reverse_singleton, List.singleton_append]
  · cases h

/-- The slots of the edges of a token, in the order in which they are freed. -/
def slotsAt (g : Graph) (index : Int) : List Nat :=
  ((g.arcs.filter (·.edge.governor == index)) ++
    g.arcs.filter fun a => a.edge.dependent == index && a.edge.governor != index).map (·.slot)

/-- A token that is removed is there, and its slots become free. -/
theorem removeToken_eq (g : Graph) (index : Int) :
    g.removeToken index =
      if g.hasToken index then
        .ok { g with
          tokens := g.tokens.filter (·.1 != index)
          arcs := g.arcs.filter fun a => !(g.slotsAt index).contains a.slot
          free := (g.slotsAt index).reverse ++ g.free
          roots := g.roots.filter (· != index) }
      else .error (.tokenMissing index) := by
  unfold removeToken token hasToken
  cases g.token? index <;> rfl

/-- Roots are set to tokens. -/
theorem setRoots_eq_ok {indices : List Int} (h : g.setRoots indices = .ok g') :
    (∀ i ∈ indices, g.hasToken i) ∧ g' = { g with roots := Order.distinct indices } := by
  unfold setRoots at h
  split at h
  · cases h
  · rename_i hn
    cases h
    refine ⟨fun i hi => ?_, rfl⟩
    have := List.find?_eq_none.1 hn i (Order.mem_byPlace.2 hi)
    simpa using this

/-- A root that is added is a token. -/
theorem addRoot_eq_ok {index : Int} (h : g.addRoot index = .ok g') :
    g.hasToken index ∧ g' = { g with roots := Order.add index g.roots } := by
  unfold addRoot at h
  split at h
  · rename_i hi
    cases h
    exact ⟨hi, rfl⟩
  · cases h

/-! ## What operations keep -/

namespace Sound

/-- An edge is stored in one slot. -/
theorem eq_of_same (h : g.Sound) {a b : Arc} (ha : a ∈ g.arcs) (hb : b ∈ g.arcs) (e : a.edge.same b.edge) : a = b := by
  by_contra hne
  have : Std.Symm fun a b : Arc => ¬ a.edge.same b.edge := ⟨fun _ _ hn hs => hn ((Edge.same_comm _ _).1 hs)⟩
  exact h.distinct.forall ha hb hne e

/-- A slot holds one edge. -/
theorem eq_of_slot (h : g.Sound) {a b : Arc} (ha : a ∈ g.arcs) (hb : b ∈ g.arcs) (e : a.slot = b.slot) : a = b :=
  List.inj_on_of_nodup_map h.slots.nodup_used ha hb e

theorem addToken (h : g.Sound) {t : Token} (e : g.addToken t = .ok g') : g'.Sound := by
  obtain ⟨hn, rfl⟩ := addToken_eq_ok e
  have hn : t.index ∉ g.indices := by rw [← hasToken_iff, hn]; exact Bool.false_ne_true
  have hk : ∀ index, ({ g with tokens := putEntry t.index t g.tokens } : Graph).hasToken index ↔
      index = t.index ∨ g.hasToken index := by
    intro index
    rw [hasToken_iff, hasToken_iff]
    exact mem_keys_putEntry t.index t g.tokens index
  refine ⟨ascending_putEntry t.index t h.ascending hn, fun index u hu => ?_, fun a ha => ?_, h.distinct, h.slots,
    h.rootsAscending, fun index hi => (hk index).2 (Or.inr (h.roots index hi))⟩
  · have hu : (putEntry t.index t g.tokens).lookup index = some u := hu
    rw [lookup_putEntry t.index t hn] at hu
    split at hu
    · rename_i hi
      cases hu
      exact hi.symm
    · exact h.placed index u hu
  · have := h.ends a ha
    exact ⟨(hk _).2 (Or.inr this.1), (hk _).2 (Or.inr this.2)⟩

/-- A new edge in a new slot keeps a graph sound. -/
theorem cons (h : g.Sound) {e : Edge} {slot : Nat} {free : List Nat} {fresh : Nat}
    (hg : g.hasToken e.governor) (hd : g.hasToken e.dependent) (hc : g.contains e = false)
    (hs : Numbering (slot :: g.arcs.map (·.slot)) free fresh) :
    Sound { g with arcs := ⟨slot, e⟩ :: g.arcs, free := free, fresh := fresh } := by
  refine ⟨h.ascending, h.placed, ?_, List.pairwise_cons.2 ⟨fun b hb hs => ?_, h.distinct⟩, hs, h.rootsAscending, h.roots⟩
  · intro a ha
    rcases List.mem_cons.1 ha with rfl | ha
    · exact ⟨hg, hd⟩
    · exact h.ends a ha
  · have := List.any_eq_false.1 hc b hb
    exact this ((Edge.same_comm _ _).1 hs)

theorem addEdge (h : g.Sound) {e : Edge} (he : g.addEdge e = .ok g') : g'.Sound := by
  obtain ⟨hg, hd, ⟨-, rfl⟩ | ⟨hc, ⟨slot, free, hf, rfl⟩ | ⟨hf, rfl⟩⟩⟩ := addEdge_eq_ok he
  · exact h
  · exact h.cons hg hd hc (hf ▸ h.slots).reuse
  · have hs := h.slots
    rw [hf] at hs
    have := h.cons hg hd hc hs.extend
    rwa [← hf] at this

/-- Dropping edges and freeing their slots keeps a graph sound. -/
theorem drop (h : g.Sound) {p : Arc → Bool} {free : List Nat}
    (hs : Numbering ((g.arcs.filter p).map (·.slot)) free g.fresh) :
    Sound { g with arcs := g.arcs.filter p, free := free } :=
  ⟨h.ascending, h.placed, fun a ha => h.ends a (List.mem_of_mem_filter ha), h.distinct.filter _, hs, h.rootsAscending,
    h.roots⟩

/-- Freeing used slots keeps a graph sound. -/
theorem freeSlots (h : g.Sound) {slots : List Nat} (hd : slots.Nodup) (hu : ∀ n ∈ slots, n ∈ g.arcs.map (·.slot)) :
    (g.freeSlots slots).Sound := by
  apply h.drop
  have := h.slots.releaseAll hd hu
  rwa [List.filter_map] at this

theorem removeEdge (h : g.Sound) {e : Edge} (he : g.removeEdge e = .ok g') : g'.Sound := by
  obtain ⟨a, ha, -, rfl⟩ := removeEdge_eq_ok he
  apply h.drop
  have := h.slots.release (List.mem_map_of_mem ha)
  rwa [List.filter_map] at this

/-- The slots of a token are freed once each. -/
theorem nodup_slotsAt (h : g.Sound) (index : Int) : (g.slotsAt index).Nodup := by
  have hu := List.Nodup.of_map _ h.slots.nodup_used
  refine List.Nodup.map_on (fun a ha b hb e => h.eq_of_slot ?_ ?_ e) (List.Nodup.append (hu.filter _) (hu.filter _) ?_)
  · rcases List.mem_append.1 ha with ha | ha <;> exact List.mem_of_mem_filter ha
  · rcases List.mem_append.1 hb with hb | hb <;> exact List.mem_of_mem_filter hb
  · intro a ha hb
    have ha := (List.mem_filter.1 ha).2
    have hb := (List.mem_filter.1 hb).2
    simp_all

/-- The slots of a token are those of the edges with an end there. -/
theorem mem_slotsAt (h : g.Sound) {index : Int} {a : Arc} (ha : a ∈ g.arcs) :
    a.slot ∈ g.slotsAt index ↔ a.edge.governor = index ∨ a.edge.dependent = index := by
  unfold slotsAt
  rw [List.mem_map]
  constructor
  · rintro ⟨b, hb, e⟩
    have hb' : b ∈ g.arcs := by rcases List.mem_append.1 hb with hb | hb <;> exact List.mem_of_mem_filter hb
    rw [h.eq_of_slot hb' ha e] at hb
    simp only [List.mem_append, List.mem_filter, beq_iff_eq, Bool.and_eq_true, bne_iff_ne] at hb
    tauto
  · intro hi
    refine ⟨a, ?_, rfl⟩
    simp only [List.mem_append, List.mem_filter, beq_iff_eq, Bool.and_eq_true, bne_iff_ne]
    tauto

/-- The edges that stay when a token is removed are those without an end there. -/
theorem arcs_apart (h : g.Sound) (index : Int) :
    (g.arcs.filter fun a => !(g.slotsAt index).contains a.slot) =
      g.arcs.filter fun a => a.edge.governor != index && a.edge.dependent != index := by
  refine List.filter_congr fun a ha => ?_
  rw [Bool.eq_iff_iff]
  simp only [Bool.not_eq_true', List.contains_eq_mem, decide_eq_false_iff_not, h.mem_slotsAt ha, Bool.and_eq_true, bne_iff_ne]
  tauto

/-- What a sound graph becomes when a token is removed. -/
theorem removeToken_eq_ok (h : g.Sound) {index : Int} (e : g.removeToken index = .ok g') :
    g.hasToken index ∧ g' = { g with
      tokens := g.tokens.filter (·.1 != index)
      arcs := g.arcs.filter fun a => a.edge.governor != index && a.edge.dependent != index
      free := (g.slotsAt index).reverse ++ g.free
      roots := g.roots.filter (· != index) } := by
  rw [removeToken_eq] at e
  split at e
  · rename_i hi
    rw [h.arcs_apart] at e
    cases e
    exact ⟨hi, rfl⟩
  · cases e

theorem removeToken (h : g.Sound) {index : Int} (e : g.removeToken index = .ok g') : g'.Sound := by
  obtain ⟨-, rfl⟩ := h.removeToken_eq_ok e
  have hk : ∀ i t, (g.tokens.filter (·.1 != index)).lookup i = some t ↔ i ≠ index ∧ g.token? i = some t := by
    intro i t
    rw [Pairs.lookup_filter_ne]
    by_cases hi : i = index <;> simp [hi, token?]
  have hk' : ∀ i, i ≠ index → g.hasToken i → ((g.tokens.filter (·.1 != index)).lookup i).isSome := by
    intro i hi ht
    obtain ⟨t, ht⟩ := Option.isSome_iff_exists.1 ht
    exact Option.isSome_iff_exists.2 ⟨t, (hk i t).2 ⟨hi, ht⟩⟩
  have hd : Sound { g with
      arcs := g.arcs.filter fun a => !(g.slotsAt index).contains a.slot
      free := (g.slotsAt index).reverse ++ g.free } := h.freeSlots (h.nodup_slotsAt index) fun n hn => by
    obtain ⟨a, ha, rfl⟩ := List.mem_map.1 hn
    exact List.mem_map_of_mem (by rcases List.mem_append.1 ha with ha | ha <;> exact List.mem_of_mem_filter ha)
  rw [h.arcs_apart] at hd
  refine ⟨?_, fun i t ht => h.placed i t ((hk i t).1 ht).2, fun a ha => ?_, hd.distinct, hd.slots,
    h.rootsAscending.filter _, fun i hi => ?_⟩
  · exact h.ascending.sublist (List.Sublist.map _ List.filter_sublist)
  · obtain ⟨ha, hne⟩ := List.mem_filter.1 ha
    simp only [Bool.and_eq_true, bne_iff_ne] at hne
    have := h.ends a ha
    exact ⟨hk' _ hne.1 this.1, hk' _ hne.2 this.2⟩
  · obtain ⟨hi, hne⟩ := List.mem_filter.1 hi
    exact hk' i (by simpa using hne) (h.roots i hi)

/-- New roots keep a graph sound, if they are tokens. -/
theorem withRoots (h : g.Sound) {roots : List Int} (ha : roots.Pairwise (· < ·)) (hr : ∀ i ∈ roots, g.hasToken i) :
    Sound { g with roots := roots } :=
  ⟨h.ascending, h.placed, h.ends, h.distinct, h.slots, ha, hr⟩

theorem setRoots (h : g.Sound) {indices : List Int} (e : g.setRoots indices = .ok g') : g'.Sound := by
  obtain ⟨hi, rfl⟩ := setRoots_eq_ok e
  exact h.withRoots (Order.ascending_distinct indices) fun i hm => hi i (Order.mem_distinct.1 hm)

theorem addRoot (h : g.Sound) {index : Int} (e : g.addRoot index = .ok g') : g'.Sound := by
  obtain ⟨hi, rfl⟩ := addRoot_eq_ok e
  refine h.withRoots (Order.ascending_add index h.rootsAscending) fun i hm => ?_
  rcases Order.mem_add.1 hm with rfl | hm
  · exact hi
  · exact h.roots i hm

theorem resetRoots (h : g.Sound) : g.resetRoots.Sound := by
  unfold Graph.resetRoots
  split
  · exact h
  · refine h.withRoots (h.ascending.sublist (List.Sublist.map _ List.filter_sublist)) fun i hm => ?_
    obtain ⟨p, hp, rfl⟩ := List.mem_map.1 hm
    exact hasToken_iff.2 (List.mem_map_of_mem (List.mem_of_mem_filter hp))

theorem copy (h : g.Sound) : g.copy.Sound := by
  have hi : g.copy.indices = g.indices := Pairs.keys_map g.tokens fun _ t => t.placed
  have hk : ∀ index, g.copy.hasToken index ↔ g.hasToken index := by
    intro index
    rw [hasToken_iff, hasToken_iff, hi]
  refine ⟨hi ▸ h.ascending, fun index t ht => ?_, fun a ha => ?_, h.distinct, h.slots, h.rootsAscending,
    fun index hr => (hk index).2 (h.roots index hr)⟩
  · rw [token?_copy] at ht
    obtain ⟨u, hu, rfl⟩ := Option.map_eq_some_iff.1 ht
    exact (index_placed u).trans (h.placed index u hu)
  · have := h.ends a ha
    exact ⟨(hk _).2 this.1, (hk _).2 this.2⟩

/-- Every operation that succeeds leaves a sound graph. -/
theorem perform (h : g.Sound) {op : Operation} (e : g.perform op = .ok g') : g'.Sound := by
  cases op with
  | addToken t => exact h.addToken e
  | removeToken index => exact h.removeToken e
  | addEdge e' => exact h.addEdge e
  | removeFirst q =>
    simp only [Graph.perform] at e
    split at e
    · exact h.removeEdge e
    · cases e
      exact h
  | removeEdge e' => exact h.removeEdge e
  | setRoots indices => exact h.setRoots e
  | addRoot index => exact h.addRoot e
  | resetRoots =>
    cases e
    exact h.resetRoots
  | copy =>
    cases e
    exact h.copy

/-- What is sound stays so, if it is taken where a change fails. -/
theorem getD (h : g.Sound) {x : Except GraphError Graph} (hx : ∀ g', x = .ok g' → g'.Sound) : (x.toOption.getD g).Sound := by
  cases x with
  | error fault => exact h
  | ok g' => exact hx g' rfl

theorem withToken (h : g.Sound) (t : Token) : (g.withToken t).Sound := h.getD fun _ => h.addToken

theorem withEdge (h : g.Sound) (e : Edge) : (g.withEdge e).Sound := h.getD fun _ => h.addEdge

theorem withRoot (h : g.Sound) (index : Int) : (g.withRoot index).Sound := h.getD fun _ => h.addRoot

end Sound

end Treebank.Graph

import Treebank.Conllu.Writer
import Treebank.Proofs.Graph.Built
import Treebank.Proofs.Graph.Likeness
import Mathlib.Data.List.Perm.Basic

/-!
# Tokens in linear order

The tokens of a graph in linear order are its tokens, each under its index; the edges into them, token by token, are its edges.
-/

namespace Treebank

/-! ## Items by their keys -/

/-- Of what is made of items, what has the key of an item is made of that one, if no two items have one key. -/
theorem filter_flatMap_eq {α β κ : Type} [DecidableEq κ] {l : List α} {f : α → List β} {key : α → κ} {key' : β → κ}
    (hl : (l.map key).Nodup) (hf : ∀ a ∈ l, ∀ b ∈ f a, key' b = key a) {a : α} (ha : a ∈ l) :
    (l.flatMap f).filter (key' · == key a) = f a := by
  induction l with
  | nil => cases ha
  | cons c l ih =>
    obtain ⟨hc, hrest⟩ := List.forall_mem_cons.1 hf
    rw [List.map_cons, List.nodup_cons] at hl
    rw [List.flatMap_cons, List.filter_append]
    rcases List.mem_cons.1 ha with rfl | ha
    · have hself : (f a).filter (key' · == key a) = f a := List.filter_eq_self.2 fun b hb => beq_iff_eq.2 (hc b hb)
      have hnone : (l.flatMap f).filter (key' · == key a) = [] := by
        refine List.filter_eq_nil_iff.2 fun b hb e => hl.1 ?_
        obtain ⟨d, hd, hb⟩ := List.mem_flatMap.1 hb
        exact List.mem_map.2 ⟨d, hd, (hrest d hd b hb).symm.trans (beq_iff_eq.1 e)⟩
      rw [hself, hnone, List.append_nil]
    · have hnone : (f c).filter (key' · == key a) = [] := by
        refine List.filter_eq_nil_iff.2 fun b hb e => hl.1 ?_
        rw [← hc b hb, beq_iff_eq.1 e]
        exact List.mem_map_of_mem ha
      rw [hnone, List.nil_append, ih hl.2 hrest ha]

/-- What is sorted by one of some keys without repetition, key after key, is all of it. -/
theorem perm_flatMap_filter {α κ : Type} [DecidableEq κ] {key : α → κ} {keys : List κ} (hkeys : keys.Nodup) {l : List α}
    (hl : ∀ a ∈ l, key a ∈ keys) : (keys.flatMap fun k => l.filter (key · == k)).Perm l := by
  induction keys generalizing l with
  | nil =>
    have hnil : l = [] := List.eq_nil_iff_forall_not_mem.2 fun a ha => List.not_mem_nil (hl a ha)
    rw [hnil]
    exact List.Perm.refl _
  | cons k keys ih =>
    rw [List.nodup_cons] at hkeys
    have hrest : ∀ a ∈ l.filter (!key · == k), key a ∈ keys := by
      intro a ha
      obtain ⟨ha, hne⟩ := List.mem_filter.1 ha
      rcases List.mem_cons.1 (hl a ha) with h | h
      · simp [h] at hne
      · exact h
    -- The items of the other keys are among those that do not have this one.
    have hothers : (keys.flatMap fun j => l.filter (key · == j)) =
        keys.flatMap fun j => (l.filter (!key · == k)).filter (key · == j) := by
      refine List.flatMap_congr fun j hj => ?_
      rw [List.filter_filter]
      refine List.filter_congr fun a _ => ?_
      by_cases h : key a = j
      · have hjk : j ≠ k := fun e => hkeys.1 (e ▸ hj)
        simp [h, hjk]
      · simp [h]
    rw [List.flatMap_cons, hothers]
    exact ((ih hkeys.2 hrest).append_left _).trans (List.filter_append_perm _ l)

namespace Graph

variable {g : Graph}

/-! ## Tokens -/

namespace Sound

/-- Every token stands under its index. -/
theorem token_of_mem (hg : g.Sound) {t : Token} (ht : t ∈ g.tokensInOrder) : g.token? t.index = some t := by
  obtain ⟨⟨index, u⟩, hu, rfl⟩ := List.mem_map.1 (g.perm_tokensInOrder.mem_iff.1 ht)
  have hu := hg.token?_eq_some_iff.2 hu
  rwa [hg.placed index u hu]

/-- The tokens by index have the indices of the graph. -/
theorem map_index_tokenList (hg : g.Sound) : g.tokenList.map (·.index) = g.indices := by
  rw [Graph.tokenList, Graph.indices, List.map_map]
  refine List.map_congr_left fun x hx => ?_
  exact hg.placed x.1 x.2 (hg.token?_eq_some_iff.2 hx)

/-- The tokens in linear order have the indices of the graph. -/
theorem perm_indices (hg : g.Sound) : (g.tokensInOrder.map (·.index)).Perm g.indices :=
  hg.map_index_tokenList ▸ g.perm_tokensInOrder.map (·.index)

/-- Every index belongs to a token in linear order. -/
theorem exists_token (hg : g.Sound) {index : Int} (hi : g.hasToken index) : ∃ t ∈ g.tokensInOrder, t.index = index :=
  List.mem_map.1 (hg.perm_indices.mem_iff.2 (hasToken_iff.1 hi))

/-- No two tokens have one index. -/
theorem nodup_indices (hg : g.Sound) : (g.tokensInOrder.map (·.index)).Nodup :=
  hg.perm_indices.nodup_iff.2 (nodup_of_ascending hg.ascending)

/-- A token in linear order belongs to the graph. -/
theorem hasToken_of_mem (hg : g.Sound) {t : Token} (ht : t ∈ g.tokensInOrder) : g.hasToken t.index := by
  rw [Graph.hasToken, hg.token_of_mem ht]
  rfl

end Sound

/-- A graph with tokens has some in linear order. -/
theorem tokensInOrder_ne_nil (hne : g.tokens ≠ []) : g.tokensInOrder ≠ [] := by
  intro e
  have hlength := g.perm_tokensInOrder.length_eq
  rw [e, Graph.tokenList, List.length_map] at hlength
  exact hne (List.length_eq_zero_iff.1 hlength.symm)

/-! ## Edges token by token -/

/-- The edges into a token are those of the graph that lead to it. -/
theorem perm_incomingBySlot (g : Graph) (index : Int) :
    (g.incomingBySlot index).Perm ((g.arcs.map (·.edge)).filter (·.dependent == index)) := by
  rw [List.filter_map]
  exact (Order.perm_sortBy (compareOn Arc.slot) _).map _

/-- The edges into the tokens are all edges. -/
theorem Sound.perm_flatMap_incomingBySlot (hg : g.Sound) :
    (g.tokensInOrder.flatMap fun t => g.incomingBySlot t.index).Perm (g.arcs.map (·.edge)) := by
  have hcovered : ∀ e ∈ g.arcs.map (·.edge), e.dependent ∈ g.tokensInOrder.map (·.index) := by
    intro e he
    obtain ⟨a, ha, rfl⟩ := List.mem_map.1 he
    exact hg.perm_indices.mem_iff.2 (hasToken_iff.1 (hg.ends a ha).2)
  have hall := perm_flatMap_filter hg.nodup_indices hcovered
  rw [List.flatMap_map] at hall
  exact (List.Perm.flatMap_left _ fun t _ => g.perm_incomingBySlot t.index).trans hall

/-- The plain edge into a token is the only one, if there is no second one. -/
theorem toList_governorEdge? {index : Int} (hone : ((g.incomingBySlot index).filter (!·.extra)).length ≤ 1) :
    (g.governorEdge? index).toList = (g.incomingBySlot index).filter (!·.extra) := by
  rw [governorEdge?, ← List.head?_filter]
  generalize (g.incomingBySlot index).filter (!·.extra) = es at hone
  rcases es with _ | ⟨e, _ | ⟨e', es⟩⟩
  · rfl
  · rfl
  · simp at hone

end Graph

namespace Conllu

variable {g : Graph}

/-- The edges that the row of a token names enter it. -/
theorem mem_incomingBySlot_of_mem_rowEdges {t : Token} {e : Edge} (he : e ∈ rowEdges g t) : e ∈ g.incomingBySlot t.index := by
  rcases List.mem_append.1 he with he | he
  · exact (Graph.plain_of_governorEdge? (Option.mem_toList.1 he)).2
  · exact List.mem_of_mem_filter he

/-- The edges that the row of a token names are those that enter it. -/
theorem perm_rowEdges {t : Token} (hone : ((g.incomingBySlot t.index).filter (!·.extra)).length ≤ 1) :
    (rowEdges g t).Perm (g.incomingBySlot t.index) := by
  rw [rowEdges, Graph.toList_governorEdge? hone]
  have hsplit := List.filter_append_perm (fun e : Edge => !e.extra) (g.incomingBySlot t.index)
  simpa only [Bool.not_not] using hsplit

/-- The extra edges that the row of a token names. -/
theorem filter_rowEdges {t : Token} (hone : ((g.incomingBySlot t.index).filter (!·.extra)).length ≤ 1) :
    (rowEdges g t).filter (·.extra) = (g.incomingBySlot t.index).filter (·.extra) := by
  rw [rowEdges, Graph.toList_governorEdge? hone, List.filter_append, List.filter_filter, List.filter_filter]
  simp

/-- The rows name all edges. -/
theorem perm_flatMap_rowEdges (hg : g.Sound) (hone : ∀ index ∈ g.indices, ((g.incomingBySlot index).filter (!·.extra)).length ≤ 1) :
    (g.tokensInOrder.flatMap (rowEdges g)).Perm (g.arcs.map (·.edge)) := by
  refine (List.Perm.flatMap_left _ fun t ht => perm_rowEdges (hone t.index ?_)).trans hg.perm_flatMap_incomingBySlot
  exact Graph.hasToken_iff.1 (hg.hasToken_of_mem ht)

end Conllu

end Treebank

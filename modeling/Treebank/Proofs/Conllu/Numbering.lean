import Treebank.Proofs.Conllu.Columns
import Treebank.Proofs.Graph.Linear

/-!
# The ids of tokens in writing

A token is written with the number of the ordinary tokens that stand before it: an ordinary one counts itself, an elided one adds its own
number behind a point. So two tokens are given one id exactly if both are elided, have one number, and follow the same ordinary tokens
(`idOf_eq_iff`).
-/

namespace Treebank

/-- Tokens of one place in linear order have one index. -/
theorem Token.index_eq_of_cmp {t u : Token} (h : Token.cmp t u = .eq) : t.index = u.index := by
  simp only [Token.cmp, compareLex, compareOn, Ordering.then_eq_eq, Std.LawfulEqOrd.compare_eq_iff_eq] at h
  exact h.2.2

/-- A token that does not stand behind another one has no greater position. -/
theorem Token.position_le_of_cmp {t u : Token} (h : (Token.cmp t u).isLE) : t.position ≤ u.position := by
  simp only [Token.cmp, compareLex, compareOn, Ordering.isLE_then_iff_or, Int.compare_eq_lt, Int.compare_eq_eq] at h
  omega

/-- Of tokens at one position, the one that does not stand behind the other has no greater index, if none is elided. -/
theorem Token.index_le_of_cmp {t u : Token} (h : (Token.cmp t u).isLE) (hposition : t.position = u.position)
    (hempty : t.emptyIndex = u.emptyIndex) : t.index ≤ u.index := by
  simp only [Token.cmp, compareLex, compareOn, Ordering.isLE_then_iff_or, Int.compare_eq_lt, Int.compare_eq_eq, Std.isLE_compare] at h
  omega

namespace Graph

variable {g : Graph}

/-- No two tokens have one place in linear order. -/
theorem Sound.pairwise_tokensInOrder (hg : g.Sound) : g.tokensInOrder.Pairwise fun t u => Token.cmp t u = .lt := by
  have hapart := (Order.pairwise_sortBy Token.cmp g.tokenList).and (List.pairwise_map.1 hg.nodup_indices)
  refine hapart.imp fun {t u} h => ?_
  obtain ⟨hle, hne⟩ := h
  exact (Ordering.isLE_iff_eq_lt_or_eq_eq.1 hle).resolve_right fun heq => hne (Token.index_eq_of_cmp heq)

end Graph

namespace Conllu

variable {g : Graph} {ts : List Token} {t u : Token} {count : Nat}

/-! ## Ids -/

/-- Ids that count are written alike only if they are the same. -/
theorem text_eq_text_iff {id id' : RowId} (h : id.Counts) (h' : id'.Counts) : id.text = id'.text ↔ id = id' := by
  refine ⟨fun e => ?_, congrArg _⟩
  have hid := ofText?_text h
  rw [e, ofText?_text h'] at hid
  exact (Option.some.inj hid).symm

/-- What the id of a token says before which some ordinary tokens stand. -/
def RowId.behind (count : Nat) (t : Token) : RowId :=
  if t.isEmptyNode then .elided count t.emptyIndex.toNat else .ordinary (count + 1)

/-- Ids count, and tell ordinary tokens from elided ones. -/
theorem RowId.of_behind (count : Nat) (t : Token) :
    (behind count t).isToken ∧ (behind count t).Counts ∧ (behind count t).isOrdinary = !t.isEmptyNode := by
  unfold behind
  split
  · rename_i hempty
    have hpos : 0 < t.emptyIndex := of_decide_eq_true hempty
    have hcounts : 0 < t.emptyIndex.toNat := by omega
    exact ⟨rfl, hcounts, by simp [hempty, RowId.isOrdinary]⟩
  · rename_i hempty
    exact ⟨rfl, Nat.succ_pos count, by simp [hempty, RowId.isOrdinary]⟩

/-- Tokens in linear order, each with what its id says; `count` ordinary tokens stand before them. -/
def withIds (count : Nat) : List Token → List (Token × RowId)
  | [] => []
  | t :: ts =>
    if t.isEmptyNode then (t, .elided count t.emptyIndex.toNat) :: withIds count ts
    else (t, .ordinary (count + 1)) :: withIds (count + 1) ts

/-- A token is given its id, and then those behind it. -/
theorem withIds_cons (count : Nat) (t : Token) (ts : List Token) :
    withIds count (t :: ts) = (t, .behind count t) :: withIds (if t.isEmptyNode then count else count + 1) ts := by
  rw [withIds, RowId.behind]
  split <;> rfl

/-- Every token has an id. -/
theorem map_fst_withIds (count : Nat) (ts : List Token) : (withIds count ts).map (·.1) = ts := by
  induction ts generalizing count with
  | nil => rfl
  | cons t ts ih => rw [withIds_cons, List.map_cons, ih]

/-- Ids count, and tell ordinary tokens from elided ones. -/
theorem of_mem_withIds {p : Token × RowId} (hp : p ∈ withIds count ts) :
    p.2.isToken ∧ p.2.Counts ∧ p.2.isOrdinary = !p.1.isEmptyNode := by
  induction ts generalizing count with
  | nil => cases hp
  | cons t ts ih =>
    rw [withIds_cons] at hp
    rcases List.mem_cons.1 hp with rfl | hp
    · exact RowId.of_behind count t
    · exact ih hp

/-- Ordinary tokens still to come have numbers above those that have gone before. -/
theorem lt_place_of_mem_withIds {p : Token × RowId} (hp : p ∈ withIds count ts) (hordinary : p.2.isOrdinary) : count < p.2.place.1 := by
  induction ts generalizing count with
  | nil => cases hp
  | cons t ts ih =>
    rw [withIds] at hp
    split at hp
    · rcases List.mem_cons.1 hp with rfl | hp
      · cases hordinary
      · exact ih hp
    · rcases List.mem_cons.1 hp with rfl | hp
      · exact Nat.lt_succ_self count
      · have := ih hp
        omega

/-- The numbers of ordinary tokens ascend. -/
theorem pairwise_withIds (count : Nat) (ts : List Token) :
    (withIds count ts).Pairwise fun p q => q.2.isOrdinary → p.2.isOrdinary → p.2.place.1 < q.2.place.1 := by
  induction ts generalizing count with
  | nil => exact List.Pairwise.nil
  | cons t ts ih =>
    rw [withIds]
    split
    · refine List.pairwise_cons.2 ⟨?_, ih count⟩
      intro q _ _ h
      cases h
    · refine List.pairwise_cons.2 ⟨?_, ih (count + 1)⟩
      intro q hq hordinary _
      exact lt_place_of_mem_withIds hq hordinary

/-- Tokens are given the ids in writing. -/
theorem assignIds_eq_map (count : Nat) (ts : List Token) :
    assignIds count ts = (withIds count ts).map fun p => (p.1.index, p.2.text) := by
  induction ts generalizing count with
  | nil => rfl
  | cons t ts ih =>
    rw [assignIds, withIds]
    split
    · rename_i hempty
      have hpos : 0 < t.emptyIndex := of_decide_eq_true hempty
      have hnat : ((t.emptyIndex.toNat : Nat) : Int) = t.emptyIndex := Int.toNat_of_nonneg (Int.le_of_lt hpos)
      rw [List.map_cons, ih]
      conv => lhs; rw [← hnat]
      rfl
    · rw [List.map_cons, ih]
      rfl

/-! ## Ordinary tokens before a token -/

/-- The ordinary tokens of some that stand before a token. -/
def ordinaryBefore (ts : List Token) (t : Token) : List Token := ts.filter fun o => !o.isEmptyNode && Token.cmp o t == .lt

/-- Tokens that stand in order are given ids by the number of ordinary tokens before them. -/
theorem withIds_eq_map (count : Nat) (hts : ts.Pairwise fun t u => Token.cmp t u = .lt) :
    withIds count ts = ts.map fun t => (t, .behind (count + (ordinaryBefore ts t).length) t) := by
  induction ts generalizing count with
  | nil => rfl
  | cons t ts ih =>
    obtain ⟨hfirst, hts⟩ := List.pairwise_cons.1 hts
    have hnone : ordinaryBefore (t :: ts) t = [] := by
      refine List.filter_eq_nil_iff.2 fun o ho => ?_
      rcases List.mem_cons.1 ho with rfl | ho
      · simp [Std.ReflCmp.compare_self]
      · simp [Std.OrientedCmp.gt_of_lt (hfirst o ho)]
    rw [withIds_cons, ih _ hts, List.map_cons, hnone]
    refine congrArg _ (List.map_congr_left fun u hu => ?_)
    have hlength : (ordinaryBefore (t :: ts) u).length = (if t.isEmptyNode then 0 else 1) + (ordinaryBefore ts u).length := by
      rw [ordinaryBefore, List.filter_cons, hfirst u hu]
      cases t.isEmptyNode <;> simp [ordinaryBefore, Nat.add_comm]
    rw [hlength, ← Nat.add_assoc]
    cases t.isEmptyNode <;> rfl

/-- Of two tokens, the one that does not stand behind the other has no other ordinary tokens before it. -/
theorem sublist_ordinaryBefore (ts : List Token) (h : (Token.cmp t u).isLE) : (ordinaryBefore ts t).Sublist (ordinaryBefore ts u) := by
  refine List.monotone_filter_right ts fun o ho => ?_
  simp only [Bool.and_eq_true, beq_iff_eq] at ho ⊢
  exact ⟨ho.1, Std.TransCmp.lt_of_lt_of_isLE ho.2 h⟩

/-- Two tokens have equally many ordinary ones before them exactly if these are the same. -/
theorem length_ordinaryBefore_eq_iff (ts : List Token) (t u : Token) : (ordinaryBefore ts t).length = (ordinaryBefore ts u).length ↔
    ∀ o ∈ ts, o.isEmptyNode = false → (Token.cmp o t = .lt ↔ Token.cmp o u = .lt) := by
  constructor
  · intro hlength
    have heq : ordinaryBefore ts t = ordinaryBefore ts u := by
      cases hcmp : Token.cmp t u with
      | gt =>
        have hlt : Token.cmp u t = .lt := Std.OrientedCmp.lt_of_gt hcmp
        exact ((sublist_ordinaryBefore ts (hlt ▸ rfl)).eq_of_length hlength.symm).symm
      | _ => exact (sublist_ordinaryBefore ts (hcmp ▸ rfl)).eq_of_length hlength
    intro o ho hordinary
    have hmem : o ∈ ordinaryBefore ts t ↔ o ∈ ordinaryBefore ts u := by rw [heq]
    simpa [ordinaryBefore, ho, hordinary] using hmem
  · intro h
    refine congrArg _ (List.filter_congr fun o ho => ?_)
    cases hempty : o.isEmptyNode with
    | true => rfl
    | false => simp [h o ho hempty]

/-! ## Ids of a graph -/

/-- What the id of a token says. -/
def rowIdOf (g : Graph) (t : Token) : RowId := .behind (ordinaryBefore g.tokensInOrder t).length t

/-- The tokens of a graph are given their ids. -/
theorem withIds_tokensInOrder (hg : g.Sound) : withIds 0 g.tokensInOrder = g.tokensInOrder.map fun t => (t, rowIdOf g t) := by
  rw [withIds_eq_map 0 hg.pairwise_tokensInOrder]
  simp only [Nat.zero_add]
  rfl

/-- The id of a token in writing is the text of what it says. -/
theorem lookup_idsOf (hg : g.Sound) {p : Token × RowId} (hp : p ∈ withIds 0 g.tokensInOrder) :
    (idsOf g).lookup p.1.index = some p.2.text := by
  have hkeys : ((idsOf g).map (·.1)).Nodup := by
    rw [idsOf, List.map_reverse, List.nodup_reverse, assignIds_eq_map, List.map_map]
    have hindices := hg.nodup_indices
    rw [← map_fst_withIds 0 g.tokensInOrder, List.map_map] at hindices
    exact hindices
  rw [Pairs.lookup_eq_some_iff_mem hkeys, idsOf, List.mem_reverse, assignIds_eq_map]
  exact List.mem_map.2 ⟨p, hp, rfl⟩

/-- The id of a token in writing. -/
theorem idOf_eq (hg : g.Sound) (ht : t ∈ g.tokensInOrder) : idOf (idsOf g) t.index = (rowIdOf g t).text := by
  have hp : (t, rowIdOf g t) ∈ withIds 0 g.tokensInOrder := withIds_tokensInOrder hg ▸ List.mem_map_of_mem ht
  rw [idOf, lookup_idsOf hg hp]
  rfl

/-- The ids of the tokens of a graph in linear order. -/
def knownIds (g : Graph) : List String := g.tokensInOrder.map fun t => idOf (idsOf g) t.index

/-- The ids are given to the tokens one by one. -/
theorem map_snd_assignIds (hg : g.Sound) : (assignIds 0 g.tokensInOrder).map (·.2) = knownIds g := by
  rw [knownIds, assignIds_eq_map, withIds_tokensInOrder hg, List.map_map, List.map_map]
  exact List.map_congr_left fun t ht => (idOf_eq hg ht).symm

/-- Every token has an id in writing, and what it says is known. -/
theorem exists_id (hg : g.Sound) (ht : t ∈ g.tokensInOrder) :
    ∃ id, (t, id) ∈ withIds 0 g.tokensInOrder ∧ idOf (idsOf g) t.index = id.text :=
  ⟨rowIdOf g t, withIds_tokensInOrder hg ▸ List.mem_map_of_mem ht, idOf_eq hg ht⟩

/-- The id of a token is known. -/
theorem idOf_mem (hg : g.Sound) {index : Int} (hi : g.hasToken index) : idOf (idsOf g) index ∈ knownIds g := by
  obtain ⟨t, ht, rfl⟩ := hg.exists_token hi
  exact List.mem_map_of_mem ht

/-- The id of a token is the text of one that counts, so it is neither a zero nor blank, and can stand in a column and in an entry. -/
theorem idOf_text (hg : g.Sound) {index : Int} (hi : g.hasToken index) : ∃ id : RowId, id.Counts ∧ idOf (idsOf g) index = id.text := by
  obtain ⟨t, ht, rfl⟩ := hg.exists_token hi
  exact ⟨rowIdOf g t, (RowId.of_behind _ t).2.1, idOf_eq hg ht⟩

/-- A row names the tokens of the graph alone. -/
theorem hasToken_of_mem_rowEdges (hg : g.Sound) {e : Edge} (he : e ∈ rowEdges g t) : g.hasToken e.governor := by
  obtain ⟨a, ha, rfl, -⟩ := Graph.exists_arc_of_mem_incomingBySlot (mem_incomingBySlot_of_mem_rowEdges he)
  exact (hg.ends a ha).1

/-- Every graph can be written. -/
theorem writeGraph?_eq_ok (hg : g.Sound) : writeGraph? g = .ok (writeGraph g) := by
  refine bind_eq_ok_iff.2 ⟨(), forM_eq_ok fun t ht => ?_, rfl⟩
  have htoken : g.token t.index = .ok t := by rw [Graph.token, hg.token_of_mem ht]
  have hnamed : (rowEdges g t).find? (fun e => ((idsOf g).lookup e.governor).isNone) = none := by
    refine List.find?_eq_none.2 fun e he => ?_
    obtain ⟨u, hu, hgovernor⟩ := hg.exists_token (hasToken_of_mem_rowEdges hg he)
    obtain ⟨id, hp, -⟩ := exists_id hg hu
    rw [← hgovernor, lookup_idsOf hg hp]
    exact Bool.false_ne_true
  rw [checkRow, htoken, hnamed]
  rfl

/-- Whether two elided tokens have one number and follow the same ordinary tokens. -/
def Clash (g : Graph) (t u : Token) : Prop :=
  t ≠ u ∧ t.isEmptyNode ∧ u.isEmptyNode ∧ t.emptyIndex = u.emptyIndex ∧
    ∀ o ∈ g.tokensInOrder, o.isEmptyNode = false → (Token.cmp o t = .lt ↔ Token.cmp o u = .lt)

/-- Two tokens are given one id exactly if they clash. -/
theorem idOf_eq_iff (hg : g.Sound) (ht : t ∈ g.tokensInOrder) (hu : u ∈ g.tokensInOrder) :
    idOf (idsOf g) t.index = idOf (idsOf g) u.index ↔ t = u ∨ Clash g t u := by
  rw [idOf_eq hg ht, idOf_eq hg hu, rowIdOf, rowIdOf, text_eq_text_iff (RowId.of_behind _ t).2.1 (RowId.of_behind _ u).2.1]
  by_cases heq : t = u
  · exact iff_of_true (heq ▸ rfl) (.inl heq)
  rw [or_iff_right heq, Clash, and_iff_right heq, RowId.behind, RowId.behind]
  cases hempty : t.isEmptyNode <;> cases hempty' : u.isEmptyNode
  · -- Two ordinary tokens: the first of them stands before the second one, but not before itself.
    have hself : ∀ v, Token.cmp v v ≠ .lt := fun v => by simp [Std.ReflCmp.compare_self]
    refine iff_of_false (fun e => ?_) (by simp)
    have hsame := (length_ordinaryBefore_eq_iff g.tokensInOrder t u).1 (by simpa using e)
    cases hcmp : Token.cmp t u with
    | lt => exact hself t ((hsame t ht hempty).2 hcmp)
    | eq => exact heq (List.inj_on_of_nodup_map hg.nodup_indices ht hu (Token.index_eq_of_cmp hcmp))
    | gt => exact hself u ((hsame u hu hempty').1 (Std.OrientedCmp.lt_of_gt hcmp))
  · simp
  · simp
  · have hnumber : t.emptyIndex.toNat = u.emptyIndex.toNat ↔ t.emptyIndex = u.emptyIndex := by
      have hpos : 0 < t.emptyIndex := of_decide_eq_true hempty
      have hpos' : 0 < u.emptyIndex := of_decide_eq_true hempty'
      omega
    simp [hnumber, length_ordinaryBefore_eq_iff, and_comm]

/-- No two tokens are given one id exactly if no two clash. -/
theorem nodup_knownIds_iff (hg : g.Sound) : (knownIds g).Nodup ↔ ∀ t ∈ g.tokensInOrder, ∀ u ∈ g.tokensInOrder, ¬ Clash g t u := by
  rw [knownIds, List.nodup_map_iff_inj_on (List.Nodup.of_map _ hg.nodup_indices)]
  refine forall₂_congr fun t ht => forall₂_congr fun u hu => ?_
  rw [idOf_eq_iff hg ht hu]
  exact ⟨fun h hclash => hclash.1 (h (.inr hclash)), fun h heq => heq.resolve_right h⟩

end Conllu

end Treebank

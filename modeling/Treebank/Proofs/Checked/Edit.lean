import Treebank.Proofs.Checked.Change
import Treebank.Proofs.Edit.Apply

/-!
# Checked edits

Once its names are found, an edit takes it that the changes that it makes succeed. A checked edit fails where one does not. On a sound
graph all of them do, whatever edits were made before: a checked edit fails for a name, as the edit does, and for nothing else
(`checkedApplyAll_agrees`).
-/

namespace Treebank

namespace Edit

open Treebank.Graph

/-- Why a checked edit fails. -/
inductive Failure where
  | reference (error : ReferenceError)
  | graph (error : GraphError)
  deriving DecidableEq, Repr

/-! ## Checked edits -/

/-- The token that a name is bound to. -/
def Workspace.checkedNode (w : Workspace) (name : String) : Except Failure Int := (w.node name).mapError .reference

/-- The same names over another graph, if there is one. -/
def Workspace.checkedOver (w : Workspace) (g : Except GraphError Graph) : Except Failure Workspace := (g.map w.over).mapError .graph

/-- Removes an edge; what is removed has to be there. -/
def Removal.checkedApply (r : Removal) (w : Workspace) : Except Failure Workspace :=
  match given? r.edge with
  | some name => do
    let e ← (w.edge name).mapError .reference
    let _ ← (([r.governor, r.dependent].filterMap given?).mapM w.node).mapError .reference
    w.checkedOver (if w.graph.contains e then w.graph.removeEdge e else .ok w.graph)
  | none => do
    let governor ← w.checkedNode (r.governor.getD "")
    let dependent ← w.checkedNode (r.dependent.getD "")
    let q : EdgeQuery := { governor := governor, dependent := dependent, relation := r.relation }
    w.checkedOver (w.graph.checkedWithoutEdges (w.graph.edge? q).toList)

/-- Applies an edit; every change that it makes has to succeed. -/
def checkedApply (w : Workspace) : Edit → Except Failure Workspace
  | removeEdge r => r.checkedApply w
  | addEdge governor dependent relation weight extra => do
    let governor ← w.checkedNode governor
    let dependent ← w.checkedNode dependent
    let e : Edge := ⟨governor, dependent, relation, weight, extra⟩
    let q : EdgeQuery := { governor := governor, dependent := dependent, relation := some relation }
    w.checkedOver (if (w.graph.edge? q).isSome then .ok w.graph else w.graph.addEdge e)
  | addDependent governor relation attributes name weight => do
    let governor ← w.checkedNode governor
    let index := w.graph.nextIndex
    let w ← w.checkedOver do
      let position ← w.graph.checkedLeftmostPosition governor
      let g ← w.graph.addToken (Token.ofAttributes index position attributes)
      g.addEdge ⟨governor, index, relation, weight, false⟩
    return w.bind name index
  | delete node => do
    let top ← w.checkedNode node
    w.checkedOver do
      let doomed ← w.graph.checkedSubtree top
      let g ← w.graph.checkedWithoutTokens doomed
      let _ ← g.resetRoots.roots.mapM g.token
      return g.resetRoots
  | addNode attributes name => do
    let index := w.graph.nextIndex
    let w ← w.checkedOver (w.graph.addToken (Token.ofAttributes index index attributes))
    return w.bind name index
  | setRoots names => do
    let indices ← (names.mapM w.node).mapError .reference
    w.checkedOver (w.graph.setRoots indices)
  | killNonRootedNodes =>
    w.checkedOver do
      let _ ← w.graph.roots.mapM w.graph.token
      w.graph.checkedWithoutTokens (w.graph.indices.filter (! w.graph.rooted.contains ·))
  | killAllIncomingEdges node => do
    let target ← w.checkedNode node
    w.checkedOver do
      let _ ← w.graph.token target
      w.graph.checkedWithoutEdges (w.graph.incoming target)

/-- Applies edits one after the other; every change that they make has to succeed. -/
def checkedApplyAll (w : Workspace) (edits : List Edit) : Except Failure Workspace := edits.foldlM checkedApply w

/-! ## No change fails -/

/-- A checked computation that fails for names alone, and where the other one does; what comes of it is sound. -/
structure Agrees (x : Except ReferenceError Workspace) (y : Except Failure Workspace) : Prop where
  eq : y = x.mapError .reference
  sound : ∀ w, x = .ok w → w.graph.Sound

variable {w : Workspace} {e : Edit} {es : List Edit}

/-- Computations agree if they go on alike from the same beginning. -/
theorem Agrees.bind {α : Type} {x : Except ReferenceError α} {f : α → Except ReferenceError Workspace}
    {f' : α → Except Failure Workspace} (h : ∀ a, x = .ok a → Agrees (f a) (f' a)) :
    Agrees (x >>= f) (x.mapError .reference >>= f') := by
  cases x with
  | error e => exact ⟨rfl, fun w hw => by cases hw⟩
  | ok a => exact h a rfl

/-- A change that succeeds. -/
theorem agrees_over {g : Graph} {x : Except GraphError Graph} (hx : x = .ok g) (hg : g.Sound) :
    Agrees (.ok (w.over g)) (w.checkedOver x) := by
  subst hx
  exact ⟨rfl, fun w' hw' => by cases hw'; exact hg⟩

/-- A change that succeeds, and a name for what it made. -/
theorem agrees_bind {g : Graph} {x : Except GraphError Graph} (hx : x = .ok g) (hg : g.Sound) (name : Option String) (index : Int) :
    Agrees (.ok ((w.over g).bind name index)) (do return (← w.checkedOver x).bind name index) := by
  subst hx
  refine ⟨rfl, fun w' hw' => ?_⟩
  cases hw'
  rwa [graph_bind]

/-- A name that is found is the name of a token. -/
theorem hasToken_of_node {name : String} {index : Int} (h : w.node name = .ok index) : w.graph.hasToken index := by
  unfold Workspace.node at h
  split at h
  · cases h
  · split at h
    · rename_i hi
      cases h
      exact hi
    · cases h

/-- Names that are found are names of tokens. -/
theorem hasToken_of_mapM_node {names : List String} {indices : List Int} (h : names.mapM w.node = .ok indices) :
    ∀ i ∈ indices, w.graph.hasToken i := by
  induction names generalizing indices with
  | nil =>
    cases h
    simp
  | cons name names ih =>
    rw [List.mapM_cons, bind_eq_ok_iff] at h
    obtain ⟨i, hi, h⟩ := h
    obtain ⟨is, his, h⟩ := bind_eq_ok_iff.1 h
    cases h
    exact List.forall_mem_cons.2 ⟨hasToken_of_node hi, ih his⟩

/-- The tokens of a list are found. -/
theorem mapM_token {g : Graph} {indices : List Int} (h : ∀ i ∈ indices, g.hasToken i) : ∃ ts, indices.mapM g.token = .ok ts := by
  refine ⟨_, mapM_eq_ok_filterMap (g := g.token?) fun i hi => ?_⟩
  obtain ⟨t, ht, hok⟩ := Scope.token_eq_ok (h i hi)
  exact ⟨t, hok, ht⟩

theorem Removal.checkedApply_agrees (hw : w.graph.Sound) (r : Removal) : Agrees (r.apply w) (r.checkedApply w) := by
  unfold Removal.apply Removal.checkedApply
  cases given? r.edge with
  | some name =>
    refine Agrees.bind fun e _ => Agrees.bind fun is _ => ?_
    by_cases hc : w.graph.contains e
    · obtain ⟨hok, hsound, -⟩ := removeEdge_succeeds hw hc
      exact agrees_over ((if_pos hc).trans hok) hsound
    · -- An edge that is not stored is not there to be removed.
      have hnone : ∀ a ∈ w.graph.arcs, ¬ a.edge.same e := by simpa [Graph.contains] using hc
      rw [withoutEdge_eq_self hnone]
      exact agrees_over (if_neg hc) hw
  | none =>
    refine Agrees.bind fun governor _ => Agrees.bind fun dependent _ => ?_
    have hstored : ∀ {o : Option Edge}, (∀ e ∈ o, w.graph.contains e) → (∀ e ∈ o.toList, w.graph.contains e) ∧
        o.toList.Pairwise fun e f => ¬ e.same f := by
      intro o ho
      cases o with
      | none => simp
      | some e => simpa using ho
    obtain ⟨hall, hpairwise⟩ := hstored fun e he => contains_edge? he
    obtain ⟨hok, hsound⟩ := checkedWithoutEdges_eq hw hall hpairwise
    exact agrees_over hok hsound

/-- On a sound graph a checked edit fails for names alone, and where the edit does. -/
theorem checkedApply_agrees (hw : w.graph.Sound) (e : Edit) : Agrees (e.apply w) (e.checkedApply w) := by
  cases e with
  | removeEdge r => exact Removal.checkedApply_agrees hw r
  | addEdge governor dependent relation weight extra =>
    refine Agrees.bind fun governor hgovernor => Agrees.bind fun dependent hdependent => ?_
    unfold withRelation
    split
    · rename_i hsome
      exact agrees_over (if_pos hsome) hw
    · rename_i hnone
      obtain ⟨hok, hsound⟩ := addEdge_succeeds hw (e := ⟨governor, dependent, relation, weight, extra⟩)
        (hasToken_of_node hgovernor) (hasToken_of_node hdependent)
      exact agrees_over ((if_neg hnone).trans hok) hsound
  | addDependent governor relation attributes name weight =>
    refine Agrees.bind fun governor hgovernor => ?_
    obtain ⟨position, hposition, hleftmost⟩ := checkedLeftmostPosition_eq hw (hasToken_of_node hgovernor)
    rw [hleftmost]
    have hindex := Token.index_ofAttributes w.graph.nextIndex position attributes
    obtain ⟨hok, hsound, htokens⟩ := addToken_succeeds hw (t := Token.ofAttributes w.graph.nextIndex position attributes)
      (by rw [hindex]; exact hw.hasToken_nextIndex)
    obtain ⟨hok', hsound'⟩ := addEdge_succeeds hsound (e := ⟨governor, w.graph.nextIndex, relation, weight, false⟩)
      ((htokens _).2 (Or.inr (hasToken_of_node hgovernor))) ((htokens _).2 (Or.inl hindex.symm))
    exact agrees_bind (bind_eq_ok_iff.2 ⟨_, hposition, bind_eq_ok_iff.2 ⟨_, hok, hok'⟩⟩) hsound' name _
  | delete node =>
    refine Agrees.bind fun top htop => ?_
    obtain ⟨hsubtree, hall⟩ := checkedSubtree_eq hw (hasToken_of_node htop)
    have hnodup : (w.graph.subtree top).Nodup := (Order.ascending_distinct _).imp (by omega)
    obtain ⟨hok, hsound⟩ := checkedWithoutTokens_eq hw hall hnodup
    obtain ⟨ts, hts⟩ := mapM_token (g := w.graph.withoutTokens (w.graph.subtree top)) fun i hi => by
      rw [← hasToken_congr (tokens_resetRoots _)]
      exact hsound.resetRoots.roots i hi
    exact agrees_over (bind_eq_ok_iff.2 ⟨_, hsubtree, bind_eq_ok_iff.2 ⟨_, hok, bind_eq_ok_iff.2 ⟨_, hts, rfl⟩⟩⟩) hsound.resetRoots
  | addNode attributes name =>
    obtain ⟨hok, hsound, -⟩ := addToken_succeeds hw (t := Token.ofAttributes w.graph.nextIndex w.graph.nextIndex attributes)
      (by rw [Token.index_ofAttributes]; exact hw.hasToken_nextIndex)
    exact agrees_bind hok hsound name _
  | setRoots names =>
    refine Agrees.bind fun indices hindices => ?_
    obtain ⟨hok, hsound⟩ := setRoots_succeeds hw (hasToken_of_mapM_node hindices)
    exact agrees_over hok hsound
  | killNonRootedNodes =>
    obtain ⟨ts, hts⟩ := mapM_token hw.roots
    have hnodup : w.graph.indices.Nodup := nodup_of_ascending hw.ascending
    obtain ⟨hok, hsound⟩ := checkedWithoutTokens_eq hw
      (fun i hi => hasToken_iff.2 (List.mem_of_mem_filter hi)) (hnodup.filter (! w.graph.rooted.contains ·))
    exact agrees_over (bind_eq_ok_iff.2 ⟨_, hts, hok⟩) hsound
  | killAllIncomingEdges node =>
    refine Agrees.bind fun target htarget => ?_
    obtain ⟨t, -, ht⟩ := Scope.token_eq_ok (hasToken_of_node htarget)
    obtain ⟨hall, hpairwise⟩ := incoming_stored hw target
    obtain ⟨hok, hsound⟩ := checkedWithoutEdges_eq hw hall hpairwise
    exact agrees_over (bind_eq_ok_iff.2 ⟨_, ht, hok⟩) hsound

/-- On a sound graph checked edits fail for names alone, and where the edits do. -/
theorem checkedApplyAll_agrees (hw : w.graph.Sound) (es : List Edit) : Agrees (applyAll w es) (checkedApplyAll w es) := by
  induction es generalizing w with
  | nil => exact ⟨rfl, fun w' hw' => by cases hw'; exact hw⟩
  | cons e es ih =>
    have he := checkedApply_agrees hw e
    unfold applyAll checkedApplyAll
    rw [List.foldlM_cons, List.foldlM_cons, he.eq]
    exact Agrees.bind fun w₁ hw₁ => ih (he.sound w₁ hw₁)

end Edit

end Treebank

import Treebank.Proofs.Edit.Reference
import Treebank.Proofs.Except
import Treebank.Proofs.Graph.Sound

/-!
# What edits do to a graph

Edits of two kinds make tokens, each under the index above all indices; the others make none, and no edit changes the comments and the
surface words of a graph. So a name whose token was removed fails
from then on, unless the index of the token was above all others when a token was made (`fails_iff_not_reissued`).
-/

namespace Treebank

namespace Graph

variable {g : Graph} {i : Int}

/-! ## Tokens of changed graphs -/

/-- What a change keeps, changes one after the other keep. -/
theorem keeps_foldl {α β : Type} {f : Graph → β} {change : Graph → α → Graph} (h : ∀ g a, f (change g a) = f g) (as : List α) (g : Graph) :
    f (as.foldl change g) = f g := by
  induction as generalizing g with
  | nil => rfl
  | cons a as ih => exact (ih _).trans (h g a)

theorem tokens_withoutEdge (g : Graph) (e : Edge) : (g.withoutEdge e).tokens = g.tokens := by
  unfold withoutEdge
  cases h : g.removeEdge e with
  | error fault => rfl
  | ok g' =>
    obtain ⟨a, -, -, rfl⟩ := removeEdge_eq_ok h
    rfl

theorem tokens_withoutEdges (g : Graph) (es : List Edge) : (g.withoutEdges es).tokens = g.tokens :=
  keeps_foldl tokens_withoutEdge es g

theorem tokens_withRelation (g : Graph) (e : Edge) : (g.withRelation e).tokens = g.tokens := by
  unfold withRelation
  split
  · rfl
  · exact tokens_withEdge g e

theorem tokens_setRoots (g : Graph) (indices : List Int) : ((g.setRoots indices).toOption.getD g).tokens = g.tokens := by
  cases h : g.setRoots indices with
  | error fault => rfl
  | ok g' =>
    obtain ⟨-, rfl⟩ := setRoots_eq_ok h
    rfl

theorem tokens_resetRoots (g : Graph) : g.resetRoots.tokens = g.tokens := by
  unfold resetRoots
  split <;> rfl

/-- Removing a token brings neither tokens nor edges. -/
theorem sublist_withoutToken (g : Graph) (index : Int) :
    (g.withoutToken index).tokens.Sublist g.tokens ∧ (g.withoutToken index).arcs.Sublist g.arcs := by
  unfold withoutToken
  rw [removeToken_eq]
  split
  · exact ⟨List.filter_sublist, List.filter_sublist⟩
  · exact ⟨.refl _, .refl _⟩

/-- Removing tokens brings neither tokens nor edges. -/
theorem sublist_withoutTokens (g : Graph) (indices : List Int) :
    (g.withoutTokens indices).tokens.Sublist g.tokens ∧ (g.withoutTokens indices).arcs.Sublist g.arcs := by
  unfold withoutTokens
  induction indices generalizing g with
  | nil => exact ⟨.refl _, .refl _⟩
  | cons i indices ih =>
    obtain ⟨htokens, harcs⟩ := ih (g.withoutToken i)
    obtain ⟨htokens', harcs'⟩ := g.sublist_withoutToken i
    exact ⟨htokens.trans htokens', harcs.trans harcs'⟩

/-- Adding a token brings no other one. -/
theorem mem_tokens_withToken {t : Token} {p : Int × Token} (h : p ∈ (g.withToken t).tokens) : p = (t.index, t) ∨ p ∈ g.tokens := by
  unfold withToken at h
  cases e : g.addToken t with
  | error fault =>
    rw [e] at h
    exact .inr h
  | ok g' =>
    rw [e] at h
    obtain ⟨-, rfl⟩ := addToken_eq_ok e
    exact List.mem_cons.1 ((perm_putEntry t.index t g.tokens).mem_iff.1 h)

/-! ## Edges of changed graphs -/

theorem arcs_withToken (g : Graph) (t : Token) : (g.withToken t).arcs = g.arcs := by
  unfold withToken
  cases h : g.addToken t with
  | error fault => rfl
  | ok g' =>
    obtain ⟨-, rfl⟩ := addToken_eq_ok h
    rfl

theorem arcs_resetRoots (g : Graph) : g.resetRoots.arcs = g.arcs := by
  unfold resetRoots
  split <;> rfl

/-- Adding an edge brings no other one. -/
theorem mem_arcs_withEdge {e : Edge} {a : Arc} (h : a ∈ (g.withEdge e).arcs) : a.edge = e ∨ a ∈ g.arcs := by
  unfold withEdge at h
  cases he : g.addEdge e with
  | error fault =>
    rw [he] at h
    exact .inr h
  | ok g' =>
    rw [he] at h
    obtain ⟨-, -, ⟨-, rfl⟩ | ⟨-, ⟨slot, free, -, rfl⟩ | ⟨-, rfl⟩⟩⟩ := addEdge_eq_ok he
    · exact .inr h
    all_goals
      rcases List.mem_cons.1 h with rfl | h
      · exact .inl rfl
      · exact .inr h

/-! ## Comments and surface words of changed graphs -/

/-- What a graph says beside its tokens and edges. -/
def header (g : Graph) : List String × List Multiword := (g.comments, g.multiwords)

theorem header_withToken (g : Graph) (t : Token) : (g.withToken t).header = g.header := by
  unfold withToken
  cases h : g.addToken t with
  | error fault => rfl
  | ok g' =>
    obtain ⟨-, rfl⟩ := addToken_eq_ok h
    rfl

theorem header_withEdge (g : Graph) (e : Edge) : (g.withEdge e).header = g.header := by
  unfold withEdge
  cases h : g.addEdge e with
  | error fault => rfl
  | ok g' => obtain ⟨-, -, ⟨-, rfl⟩ | ⟨-, ⟨slot, free, -, rfl⟩ | ⟨-, rfl⟩⟩⟩ := addEdge_eq_ok h <;> rfl

theorem header_withRelation (g : Graph) (e : Edge) : (g.withRelation e).header = g.header := by
  unfold withRelation
  split
  · rfl
  · exact header_withEdge g e

theorem header_withoutToken (g : Graph) (index : Int) : (g.withoutToken index).header = g.header := by
  unfold withoutToken
  rw [removeToken_eq]
  split <;> rfl

theorem header_withoutTokens (g : Graph) (indices : List Int) : (g.withoutTokens indices).header = g.header :=
  keeps_foldl header_withoutToken indices g

theorem header_withoutEdge (g : Graph) (e : Edge) : (g.withoutEdge e).header = g.header := by
  unfold withoutEdge
  cases h : g.removeEdge e with
  | error fault => rfl
  | ok g' =>
    obtain ⟨a, -, -, rfl⟩ := removeEdge_eq_ok h
    rfl

theorem header_withoutEdges (g : Graph) (es : List Edge) : (g.withoutEdges es).header = g.header :=
  keeps_foldl header_withoutEdge es g

theorem header_setRoots (g : Graph) (indices : List Int) : ((g.setRoots indices).toOption.getD g).header = g.header := by
  cases h : g.setRoots indices with
  | error fault => rfl
  | ok g' =>
    obtain ⟨-, rfl⟩ := setRoots_eq_ok h
    rfl

theorem header_resetRoots (g : Graph) : g.resetRoots.header = g.header := by
  unfold resetRoots
  split <;> rfl

end Graph

/-- What no attribute changes is, in a token of some attributes, what it is in the token to begin with. -/
theorem Token.keeps_ofAttributes {β : Type} {f : Token → β} (hf : ∀ t entry, f (t.withAttribute entry) = f t) (index position : Int)
    (attributes : List (String × String)) :
    f (Token.ofAttributes index position attributes) = f { index := index, position := position } := by
  have hfold : ∀ (t : Token), f (attributes.foldl Token.withAttribute t) = f t := by
    induction attributes with
    | nil => exact fun t => rfl
    | cons entry attributes ih => exact fun t => (ih _).trans (hf t entry)
  exact hfold _

/-- A token of some attributes has the index that it is given. -/
theorem Token.index_ofAttributes (index position : Int) (attributes : List (String × String)) :
    (Token.ofAttributes index position attributes).index = index := by
  refine Token.keeps_ofAttributes (f := Token.index) (fun t entry => ?_) index position attributes
  unfold Token.withAttribute
  split <;> rfl

namespace Edit

open Treebank.Graph

variable {w w' : Workspace} {e : Edit} {x : String} {i : Int}

/-! ## One edit -/

/-- Whether an edit makes a token. -/
def makesToken : Edit → Bool
  | addDependent .. | addNode .. => true
  | _ => false

/-- The attributes of the token that an edit makes. -/
def newAttributes : Edit → List (String × String)
  | addDependent _ _ attributes _ _ | addNode attributes _ => attributes
  | _ => []

@[simp] theorem graph_bind (w : Workspace) (name : Option String) (index : Int) : (w.bind name index).graph = w.graph := by
  unfold Workspace.bind
  cases given? name <;> rfl

/-- Removing an edge, by name or by its ends, is leaving out some edges of the graph. -/
theorem removal_eq_ok {r : Removal} (h : r.apply w = .ok w') : ∃ es, w' = w.over (w.graph.withoutEdges es) := by
  unfold Removal.apply at h
  split at h <;> simp only [bind_eq_ok_iff] at h
  · obtain ⟨f, -, is, -, h⟩ := h
    cases h
    exact ⟨[f], rfl⟩
  · obtain ⟨governor, -, dependent, -, h⟩ := h
    cases h
    exact ⟨_, rfl⟩

/-- The tokens of a graph with a new one under the next index. -/
theorem mem_tokens_withNew (g : Graph) (position : Int) (attributes : List (String × String)) {p : Int × Token}
    (hp : p ∈ (g.withToken (Token.ofAttributes g.nextIndex position attributes)).tokens) :
    p = (g.nextIndex, Token.ofAttributes g.nextIndex position attributes) ∨ p ∈ g.tokens := by
  have := mem_tokens_withToken hp
  rwa [Token.index_ofAttributes] at this

/-- What an edit does: either it makes no token and leaves the bindings, or it makes one under the next index and binds its name. -/
theorem apply_cases (h : e.apply w = .ok w') :
    e.makesToken = false ∧ w'.bindings = w.bindings ∧ w'.graph.tokens ⊆ w.graph.tokens ∨
      e.makesToken = true ∧ ∃ name g position, e.introducedNames = (given? name).toList ∧
        w' = (w.over g).bind name w.graph.nextIndex ∧
        ∀ p ∈ g.tokens, p = (w.graph.nextIndex, Token.ofAttributes w.graph.nextIndex position e.newAttributes) ∨ p ∈ w.graph.tokens := by
  have hkept : ∀ {g : Graph}, g.tokens = w.graph.tokens → g.tokens ⊆ w.graph.tokens := fun hg => hg ▸ List.Subset.refl _
  cases e with
  | removeEdge r =>
    obtain ⟨es, rfl⟩ := removal_eq_ok h
    exact .inl ⟨rfl, rfl, hkept (tokens_withoutEdges w.graph es)⟩
  | addEdge governor dependent relation weight extra =>
    obtain ⟨governor, -, h⟩ := bind_eq_ok_iff.1 h
    obtain ⟨dependent, -, h⟩ := bind_eq_ok_iff.1 h
    cases h
    exact .inl ⟨rfl, rfl, hkept (tokens_withRelation w.graph _)⟩
  | addDependent governor relation attributes name weight =>
    obtain ⟨governor, -, h⟩ := bind_eq_ok_iff.1 h
    cases h
    refine .inr ⟨rfl, name, _, (w.graph.leftmostPosition governor).toOption.getD w.graph.nextIndex, rfl, rfl, fun p hp => ?_⟩
    rw [tokens_withEdge] at hp
    exact mem_tokens_withNew w.graph _ attributes hp
  | delete node =>
    obtain ⟨top, -, h⟩ := bind_eq_ok_iff.1 h
    cases h
    have hpruned : (w.graph.withoutTokens (w.graph.subtree top)).resetRoots.tokens ⊆ w.graph.tokens := by
      rw [tokens_resetRoots]
      exact (sublist_withoutTokens w.graph _).1.subset
    exact .inl ⟨rfl, rfl, hpruned⟩
  | addNode attributes name =>
    cases h
    exact .inr ⟨rfl, name, _, w.graph.nextIndex, rfl, rfl, fun p hp => mem_tokens_withNew w.graph _ attributes hp⟩
  | setRoots names =>
    obtain ⟨indices, -, h⟩ := bind_eq_ok_iff.1 h
    cases h
    exact .inl ⟨rfl, rfl, hkept (tokens_setRoots w.graph indices)⟩
  | killNonRootedNodes =>
    cases h
    exact .inl ⟨rfl, rfl, (sublist_withoutTokens w.graph _).1.subset⟩
  | killAllIncomingEdges node =>
    obtain ⟨target, -, h⟩ := bind_eq_ok_iff.1 h
    cases h
    exact .inl ⟨rfl, rfl, hkept (tokens_withoutEdges w.graph _)⟩

/-- An edit brings no token but one that it makes: under the next index, of the attributes that it gives. -/
theorem mem_tokens_apply (h : e.apply w = .ok w') {p : Int × Token} (hp : p ∈ w'.graph.tokens) : p ∈ w.graph.tokens ∨
    e.makesToken ∧ ∃ position, p = (w.graph.nextIndex, Token.ofAttributes w.graph.nextIndex position e.newAttributes) := by
  rcases apply_cases h with ⟨-, -, hkept⟩ | ⟨hmakes, name, g, position, -, rfl, hkept⟩
  · exact .inl (hkept hp)
  · rw [graph_bind] at hp
    exact (hkept p hp).symm.imp_right fun hp => ⟨hmakes, position, hp⟩

/-- An edit leaves comments and surface words alone. -/
theorem header_apply (h : e.apply w = .ok w') : w'.graph.header = w.graph.header := by
  cases e with
  | removeEdge r =>
    obtain ⟨es, rfl⟩ := removal_eq_ok h
    exact header_withoutEdges w.graph es
  | addEdge governor dependent relation weight extra =>
    obtain ⟨governor, -, h⟩ := bind_eq_ok_iff.1 h
    obtain ⟨dependent, -, h⟩ := bind_eq_ok_iff.1 h
    cases h
    exact header_withRelation w.graph _
  | addDependent governor relation attributes name weight =>
    obtain ⟨governor, -, h⟩ := bind_eq_ok_iff.1 h
    cases h
    rw [graph_bind]
    exact (header_withEdge _ _).trans (header_withToken w.graph _)
  | delete node =>
    obtain ⟨top, -, h⟩ := bind_eq_ok_iff.1 h
    cases h
    exact (header_resetRoots _).trans (header_withoutTokens w.graph _)
  | addNode attributes name =>
    cases h
    rw [graph_bind]
    exact header_withToken w.graph _
  | setRoots names =>
    obtain ⟨indices, -, h⟩ := bind_eq_ok_iff.1 h
    cases h
    exact header_setRoots w.graph indices
  | killNonRootedNodes =>
    cases h
    exact header_withoutTokens w.graph _
  | killAllIncomingEdges node =>
    obtain ⟨target, -, h⟩ := bind_eq_ok_iff.1 h
    cases h
    exact header_withoutEdges w.graph _

/-- A token that is there after an edit and was not there before was made by it, under the next index. -/
theorem nextIndex_of_appears (h : e.apply w = .ok w') (hb : w.graph.hasToken i = false) (ha : w'.graph.hasToken i) :
    e.makesToken ∧ w.graph.nextIndex = i := by
  obtain ⟨p, hp, rfl⟩ := List.mem_map.1 (hasToken_iff.1 ha)
  rcases mem_tokens_apply h hp with hp | ⟨hmakes, position, rfl⟩
  · rw [hasToken_iff.2 (List.mem_map_of_mem hp)] at hb
    cases hb
  · exact ⟨hmakes, rfl⟩

/-- An edit leaves the names alone that it does not bind. -/
theorem lookup_apply (h : e.apply w = .ok w') (hx : x ∉ e.introducedNames) :
    w'.bindings.nodes.lookup x = w.bindings.nodes.lookup x := by
  rcases apply_cases h with ⟨-, hb, -⟩ | ⟨-, name, g, position, hn, rfl, -⟩
  · rw [hb]
  · rw [hn] at hx
    exact lookup_bind name _ hx

/-- The names that are bound after an edit were bound before or are bound by it. -/
theorem keys_apply (h : e.apply w = .ok w') :
    ∀ y ∈ Pairs.keys w'.bindings.nodes, y ∈ Pairs.keys w.bindings.nodes ∨ y ∈ e.introducedNames := by
  rcases apply_cases h with ⟨-, hb, -⟩ | ⟨-, name, g, position, hn, rfl, -⟩
  · rw [hb]
    exact fun y hy => Or.inl hy
  · rw [hn]
    exact keys_bind name _

/-- A name that is given is the name that stands there. -/
theorem eq_some_of_given? {name : Option String} (h : given? name = some x) : name = some x := (Option.filter_eq_some_iff.1 h).1

/-- An edit fails if a name fails that it reads. -/
theorem apply_fails (hx : x ∈ e.nodeReferences) (hw : ∃ err, w.node x = .error err) : ∃ err, e.apply w = .error err := by
  cases e with
  | removeEdge r =>
    simp only [apply, Removal.apply]
    split
    · exact bind_fails_right fun e => bind_fails_left (mapM_fails hx hw)
    · obtain ⟨name, hm, hn⟩ := List.mem_filterMap.1 hx
      have hn := eq_some_of_given? hn
      rcases List.mem_pair.1 hm with rfl | rfl
      · rw [hn]
        exact bind_fails_left hw
      · rw [hn]
        exact bind_fails_right fun governor => bind_fails_left hw
  | addEdge governor dependent relation weight extra =>
    rcases List.mem_pair.1 hx with rfl | rfl
    · exact bind_fails_left hw
    · exact bind_fails_right fun governor => bind_fails_left hw
  | addDependent governor relation attributes name weight =>
    obtain rfl : x = governor := by simpa [nodeReferences] using hx
    exact bind_fails_left hw
  | delete node =>
    obtain rfl : x = node := by simpa [nodeReferences] using hx
    exact bind_fails_left hw
  | addNode attributes name => simp [nodeReferences] at hx
  | setRoots names => exact bind_fails_left (mapM_fails hx hw)
  | killNonRootedNodes => simp [nodeReferences] at hx
  | killAllIncomingEdges node =>
    obtain rfl : x = node := by simpa [nodeReferences] using hx
    exact bind_fails_left hw

/-! ## Runs -/

/-- Applying a list is applying its first edit and then the others. -/
theorem applyAll_cons_eq_ok_iff {es : List Edit} :
    applyAll w (e :: es) = .ok w' ↔ ∃ w₁, e.apply w = .ok w₁ ∧ applyAll w₁ es = .ok w' := by
  unfold applyAll
  rw [List.foldlM_cons, bind_eq_ok_iff]

/-- A run leaves comments and surface words alone. -/
theorem header_applyAll {es : List Edit} (h : applyAll w es = .ok w') : w'.graph.header = w.graph.header := by
  induction es generalizing w with
  | nil =>
    cases h
    rfl
  | cons e es ih =>
    obtain ⟨w₁, he, hes⟩ := applyAll_cons_eq_ok_iff.1 h
    exact (ih hes).trans (header_apply he)

/-- A run leaves the names alone that it does not bind. -/
theorem lookup_applyAll {es : List Edit} (h : applyAll w es = .ok w') (hx : x ∉ introducedBy es) :
    w'.bindings.nodes.lookup x = w.bindings.nodes.lookup x := by
  induction es generalizing w with
  | nil =>
    cases h
    rfl
  | cons e es ih =>
    obtain ⟨w₁, he, hes⟩ := applyAll_cons_eq_ok_iff.1 h
    rw [introducedBy, List.flatMap_cons, List.mem_append, not_or] at hx
    exact (ih hes hx.2).trans (lookup_apply he hx.1)

/-- The names that are bound after a run were bound before or are bound by it. -/
theorem keys_applyAll {es : List Edit} (h : applyAll w es = .ok w') :
    ∀ y ∈ Pairs.keys w'.bindings.nodes, y ∈ Pairs.keys w.bindings.nodes ∨ y ∈ introducedBy es := by
  induction es generalizing w with
  | nil =>
    cases h
    exact fun y hy => Or.inl hy
  | cons e es ih =>
    obtain ⟨w₁, he, hes⟩ := applyAll_cons_eq_ok_iff.1 h
    intro y hy
    rw [introducedBy, List.flatMap_cons, List.mem_append]
    rcases ih hes y hy with hy | hy
    · exact (keys_apply he y hy).imp_right Or.inl
    · exact Or.inr (Or.inr hy)

/-! ## Removed tokens -/

/-- An edit that removes the token of an index. -/
def Removes (e : Edit) (w w' : Workspace) (i : Int) : Prop :=
  w.graph.hasToken i ∧ e.apply w = .ok w' ∧ w'.graph.hasToken i = false

/-- Some edit of a list gives an index out again, and no edit after it removes the new token: an edit that makes a token is applied
when the index is the next one, and from then on the index has a token. -/
def Reissued (w : Workspace) (es : List Edit) (i : Int) : Prop :=
  ∃ before e after w', es = before ++ e :: after ∧ applyAll w before = .ok w' ∧ e.makesToken ∧ w'.graph.nextIndex = i ∧
    ∀ part, part <+: after → ∀ w'', applyAll w (before ++ e :: part) = .ok w'' → w''.graph.hasToken i

/-- If an index has a token at the end of a run, it had one all the time, or it was given out again on the way. -/
theorem present_or_reissued {es : List Edit} (h : applyAll w es = .ok w') (hi : w'.graph.hasToken i) :
    (∀ part, part <+: es → ∀ w'', applyAll w part = .ok w'' → w''.graph.hasToken i) ∨ Reissued w es i := by
  induction es generalizing w with
  | nil =>
    refine Or.inl fun part hp w'' hw => ?_
    rw [List.prefix_nil.1 hp] at hw
    cases h
    cases hw
    exact hi
  | cons e es ih =>
    obtain ⟨w₁, he, hes⟩ := applyAll_cons_eq_ok_iff.1 h
    rcases ih hes with hall | ⟨before, c, after, w₂, rfl, hb, hc, hn, hkeep⟩
    · have hrest : ∀ part, part <+: es → ∀ w'', applyAll w (e :: part) = .ok w'' → w''.graph.hasToken i := by
        intro part hp w'' hw
        obtain ⟨w₂, he', hw⟩ := applyAll_cons_eq_ok_iff.1 hw
        rw [he] at he'
        cases he'
        exact hall part hp w'' hw
      cases hw : w.graph.hasToken i with
      | true =>
        refine Or.inl fun part hp w'' hw'' => ?_
        rcases List.prefix_cons_iff.1 hp with rfl | ⟨part', rfl, hp'⟩
        · cases hw''
          exact hw
        · exact hrest part' hp' w'' hw''
      | false =>
        obtain ⟨hm, hn⟩ := nextIndex_of_appears he hw (hall [] List.nil_prefix w₁ rfl)
        exact Or.inr ⟨[], e, es, w, rfl, rfl, hm, hn, hrest⟩
    · refine Or.inr ⟨e :: before, c, after, w₂, rfl, applyAll_cons_eq_ok_iff.2 ⟨w₁, he, hb⟩, hc, hn, fun part hp w'' hw => ?_⟩
      obtain ⟨w₃, he', hw⟩ := applyAll_cons_eq_ok_iff.1 hw
      rw [he] at he'
      cases he'
      exact hkeep part hp w'' hw

/-- In a run that begins without a token of an index, the index has one at the end exactly if it was given out again. -/
theorem hasToken_iff_reissued {es : List Edit} (h : applyAll w es = .ok w') (hw : w.graph.hasToken i = false) :
    w'.graph.hasToken i ↔ Reissued w es i := by
  constructor
  · intro hi
    rcases present_or_reissued h hi with hall | hr
    · have := hall [] List.nil_prefix w rfl
      rw [hw] at this
      cases this
    · exact hr
  · rintro ⟨before, c, after, w₂, rfl, -, -, -, hkeep⟩
    exact hkeep after (List.prefix_refl _) w' h

/-- When an edit of a list that was checked has removed the token of a name, every later edit that reads the name fails, exactly if the
index of the token has not been given out again. -/
theorem fails_iff_not_reissued {nodes edges : List String} {w₀ w₁ w₂ w₃ : Workspace} {before between : List Edit}
    (hcheck : checkNames nodes edges (before ++ e :: between) = .ok ())
    (hnodes : ∀ name ∈ Pairs.keys w₀.bindings.nodes, name ∈ nodes) (hbefore : applyAll w₀ before = .ok w₁)
    (hx : w₁.bindings.nodes.lookup x = some i) (hremoves : Removes e w₁ w₂ i) (hbetween : applyAll w₂ between = .ok w₃) :
    (∀ later : Edit, checkNames nodes edges (before ++ e :: between ++ [later]) = .ok () → x ∈ later.nodeReferences →
        ∃ err, later.apply w₃ = .error err) ↔
      ¬ Reissued w₂ between i := by
  obtain ⟨-, he, hgone⟩ := hremoves
  obtain ⟨-, hrest⟩ := (checkFrom_append_eq_ok_iff ..).1 hcheck
  have hknown : x ∈ nodes ++ introducedBy before := by
    have hkey : x ∈ Pairs.keys w₁.bindings.nodes := by
      rw [Pairs.keys, ← Pairs.isSome_lookup_iff, hx]
      rfl
    rcases keys_applyAll hbefore x hkey with hx₀ | hx₀
    · exact List.mem_append_left _ (hnodes x hx₀)
    · exact List.mem_append_right _ hx₀
  have hrun : applyAll w₁ (e :: between) = .ok w₃ := applyAll_cons_eq_ok_iff.2 ⟨w₂, he, hbetween⟩
  have hbound : w₃.bindings.nodes.lookup x = some i := by
    rw [lookup_applyAll hrun fun hm => notMem_of_checkFrom hrest x hm hknown, hx]
  have hnode : (∃ err, w₃.node x = .error err) ↔ ¬ w₃.graph.hasToken i := by
    unfold Workspace.node
    simp only [hbound]
    by_cases hi : w₃.graph.hasToken i <;> simp [hi]
  rw [← hasToken_iff_reissued hbetween hgone, ← hnode]
  constructor
  · intro hall
    -- The edit that removes the token of the name again is accepted, and resolves the name.
    have hdelete : checkNames nodes edges (before ++ e :: between ++ [delete x]) = .ok () := by
      refine (checkFrom_append_eq_ok_iff ..).2 ⟨hcheck, ?_⟩
      have hx : (nodes ++ introducedBy (before ++ e :: between)).contains x = true := by
        rw [List.contains_iff_mem, introducedBy, List.flatMap_append, ← List.append_assoc]
        exact List.mem_append_left _ hknown
      simp only [checkFrom, fault?, nodeReferences, edgeReferences, introducedNames, List.find?_cons, List.find?_nil, hx,
        Bool.not_true, Option.map_none]
    obtain ⟨err, herr⟩ := hall (delete x) hdelete (List.mem_singleton_self x)
    cases hw : w₃.node x with
    | error err => exact ⟨err, rfl⟩
    | ok top =>
      simp only [apply, hw] at herr
      cases herr
  · exact fun hfails later _ hlater => apply_fails hlater hfails

/-- Above a token that stays, an index is not given out again: here the first of two tokens is removed, and its name fails. -/
theorem fails_below_other_token :
    let a : Token := { index := 0, word := "a" }
    let b : Token := { index := 1, word := "b" }
    let c : Token := { index := 2, word := "c" }
    let w₀ : Workspace := { graph := { tokens := [(0, a), (1, b)] }, bindings := { nodes := [("x", 0)] } }
    let w₁ : Workspace := { w₀ with graph := { tokens := [(1, b)], roots := [1] } }
    let w₂ : Workspace := { w₀ with graph := { tokens := [(1, b), (2, c)], roots := [1] } }
    (∀ later : Edit, checkNames ["x"] [] ([] ++ delete "x" :: [addNode [("word", "c")] none] ++ [later]) = .ok () →
        "x" ∈ later.nodeReferences → ∃ err, later.apply w₂ = .error err) ↔
      ¬ Reissued w₁ [addNode [("word", "c")] none] 0 := by
  intro a b c w₀ w₁ w₂
  exact fails_iff_not_reissued (by decide) (show ∀ name ∈ Pairs.keys w₀.bindings.nodes, name ∈ ["x"] by decide)
    (rfl : applyAll w₀ [] = .ok w₀) (by decide) ⟨by decide, by decide +kernel, by decide⟩ (by decide +kernel)

/-- The index of the last token is given out again at once: then the name of the removed token is that of the new one, and an edit that
reads it removes the new token. -/
theorem removed_name_resolves :
    let a : Token := { index := 0, word := "a" }
    let b : Token := { index := 1, word := "b" }
    let c : Token := { index := 1, word := "c" }
    let w₀ : Workspace :=
      { graph := { tokens := [(0, a), (1, b)], arcs := [⟨0, ⟨0, 1, "x", .one, false⟩⟩], fresh := 1, roots := [0] }
        bindings := { nodes := [("x", 1)] } }
    let w₁ : Workspace := { w₀ with graph := { tokens := [(0, a)], free := [0], fresh := 1, roots := [0] } }
    let w₂ : Workspace := { w₀ with graph := { tokens := [(0, a), (1, c)], free := [0], fresh := 1, roots := [0] } }
    checkNames ["x"] [] [delete "x", addNode [("word", "c")] none, delete "x"] = .ok () ∧
      Removes (delete "x") w₀ w₁ 1 ∧ applyAll w₁ [addNode [("word", "c")] none] = .ok w₂ ∧
      "x" ∈ (delete "x").nodeReferences ∧ (delete "x").apply w₂ = .ok w₁ :=
  ⟨by decide, ⟨by decide, by decide +kernel, by decide⟩, by decide +kernel, by decide, by decide +kernel⟩

end Edit

end Treebank

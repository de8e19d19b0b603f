import Treebank.Graph.Compact
import Treebank.Proofs.Graph.Likeness

/-!
# Alike graphs in writing

The compact form and the list form look at the edges of each token in their order and at the order of all edges, but not at weights.
Graphs with one list of tokens and alike edges are written alike (`Alike.compact`, `listing_of_same`).
-/

namespace Treebank.Graph

variable {g h : Graph}

/-- Edges stand for those of one outline. -/
abbrev Outlined (a b : Edge) : Prop := a.outline = b.outline

/-- Branches with one token and edges of one outline. -/
def BranchAlike (x y : Branch) : Prop := x.1.outline = y.1.outline ∧ x.2 = y.2

/-- Where branches are written depends on the outlines of their edges alone. -/
theorem branchCmp_congr {x y x' y' : Branch} (h : BranchAlike x y) (h' : BranchAlike x' y') : Branch.cmp x x' = Branch.cmp y y' := by
  obtain ⟨-, -, hr, he⟩ := Edge.outline_eq_iff.1 h.1
  obtain ⟨-, -, hr', he'⟩ := Edge.outline_eq_iff.1 h'.1
  simp only [Branch.cmp, compareLex, compareOn, h.2, h'.2, hr, hr', he, he']

/-- Graphs that list one token under each index find the same tokens. -/
theorem token?_of_tokens_eq (ht : g.tokens = h.tokens) : g.token? = h.token? := by
  funext index
  rw [token?, token?, ht]

/-- Graphs with the same tokens and roots have one order of roots. -/
theorem rootsInOrder_congr (ht : g.tokens = h.tokens) (hr : g.roots = h.roots) : g.rootsInOrder = h.rootsInOrder := by
  rw [rootsInOrder, rootsInOrder, token?_of_tokens_eq ht, hr]

namespace Alike

/-- The branches of a token. -/
theorem branches (hA : Alike Outlined g h) (ht : g.tokens = h.tokens) (index : Int) :
    List.Forall₂ Outlined (g.branches index) (h.branches index) := by
  refine Edge.forall₂_firstOfEach (R := Outlined) id (fun hab => (Edge.outline_eq_iff.1 hab).2.1) ?_
  refine List.rel_map (R := BranchAlike) (P := Outlined) (fun x y hxy => hxy.1) ?_
  refine Order.forall₂_sortBy ?_ (List.rel_filterMap ?_ (hA.outgoing index))
  · intro x y x' y' hxy hxy'
    exact branchCmp_congr hxy hxy'
  · intro a b hab
    simp only [token?_of_tokens_eq ht, (Edge.outline_eq_iff.1 hab).2.1]
    cases h.token? b.dependent with
    | none => exact .none
    | some t => exact .some ⟨hab, rfl⟩

/-- A token is labelled by itself. -/
theorem label_congr (ht : g.tokens = h.tokens) (showTags : Bool) (index : Int) : g.label showTags index = h.label showTags index := by
  rw [label, label, token?_of_tokens_eq ht]

/-- Expansions begin and go on alike. -/
theorem expansion (hA : Alike Outlined g h) (ht : g.tokens = h.tokens) (showTags : Bool) (index : Int) :
    g.expansion showTags index = h.expansion showTags index := by
  have hb := hA.branches ht index
  have hmentions : (g.branches index).map (fun e => Piece.mention e.relation e.dependent) =
      (h.branches index).map fun e => Piece.mention e.relation e.dependent := by
    refine Order.map_eq_of_forall₂ (fun a b hab => ?_) hb
    obtain ⟨-, hd, hr, -⟩ := Edge.outline_eq_iff.1 hab
    rw [hd, hr]
  simp only [Graph.expansion, Order.isEmpty_eq_of_forall₂ hb, hmentions, label_congr ht]

/-- Pieces, and the roots behind them, are written alike. -/
theorem writePieces (hA : Alike Outlined g h) (ht : g.tokens = h.tokens) (showTags : Bool) (unseen roots : List Int)
    (pieces : List Piece) : g.writePieces showTags unseen roots pieces = h.writePieces showTags unseen roots pieces := by
  have hexp := hA.expansion ht showTags
  induction unseen, roots, pieces using Graph.writePieces.induct g showTags with
  | case1 unseen roots pieces ih =>
    rw [Graph.writePieces, Graph.writePieces, ih]
  | case2 unseen roots relation index pieces ihOpen ihBare =>
    rw [Graph.writePieces, Graph.writePieces, ihBare, hexp, label_congr ht]
    split
    · rename_i hmem
      rw [← hexp index, ihOpen hmem]
    · rfl
  | case3 unseen =>
    rw [Graph.writePieces, Graph.writePieces]
  | case4 unseen root roots ih =>
    rw [Graph.writePieces, Graph.writePieces, ih, hexp]

/-- Alike graphs with the same tokens have one compact form. -/
theorem compact (hA : Alike Outlined g h) (ht : g.tokens = h.tokens) (showTags : Bool) : g.compact showTags = h.compact showTags := by
  have hexp := hA.expansion ht showTags
  unfold Graph.compact
  rw [rootsInOrder_congr ht hA.roots, hA.indices]
  cases h.rootsInOrder with
  | nil => rw [isEmpty, isEmpty, ht]
  | cons root roots => simp only [hexp, hA.writePieces ht]

end Alike

/-- Equal graphs with the same tokens have one list form. -/
theorem listing_of_same (hs : g.same h) (ht : g.tokens = h.tokens) : g.listing = h.listing := by
  have hname : g.name = h.name := by
    funext index
    rw [name, name, token?_of_tokens_eq ht]
  have hroots : g.roots = h.roots := congrArg Signature.roots (eq_of_beq hs)
  have hedges : List.Forall₂ Outlined g.edges h.edges := by
    have he : g.edges.map Edge.outline = h.edges.map Edge.outline := congrArg Signature.edges (eq_of_beq hs)
    rwa [← List.forall₂_eq_eq_eq, List.forall₂_map_left_iff, List.forall₂_map_right_iff] at he
  unfold listing
  rw [rootsInOrder_congr ht hroots, hname]
  congr 2
  refine Order.map_eq_of_forall₂ (fun a b hab => ?_) hedges
  obtain ⟨hg, hd, hr, he⟩ := Edge.outline_eq_iff.1 hab
  rw [hg, hd, hr, he]

end Treebank.Graph

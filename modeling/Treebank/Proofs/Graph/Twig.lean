import Treebank.Proofs.Graph.Compact

/-!
# Twigs

What the compact form writes of a root is a twig: a token, and below it the tokens to which its edges lead, each of them bare or with
twigs of its own. Twigs grow through the graph (`grow`): a dependent that was not expanded so far is expanded where it is met, any other
one stays bare. The compact form is the text of the twigs of its roots (`compact_eq_text`).
-/

namespace Treebank.Graph

/-- A token as it is written: bare, or with twigs below it, each behind the relation by which it hangs. -/
inductive Twig where
  | mk (index : Int) (below : List (String × Twig))

namespace Twig

/-- The token at the top of a twig. -/
def index : Twig → Int
  | mk index _ => index

/-- The relations and the tokens directly below a token. -/
def heads (below : List (String × Twig)) : List (String × Int) := below.map fun branch => (branch.1, branch.2.index)

mutual
/-- The text of a twig: a bare token is a label, any other one stands in brackets with what is below it. -/
def text (g : Graph) (showTags : Bool) : Twig → String
  | mk index below =>
    if below.isEmpty then g.label showTags index else "[" ++ g.label showTags index ++ belowText g showTags below ++ "]"

/-- The text of what is below a token. -/
def belowText (g : Graph) (showTags : Bool) : List (String × Twig) → String
  | [] => ""
  | (relation, twig) :: rest => " " ++ relation ++ ">" ++ text g showTags twig ++ belowText g showTags rest
end

mutual
/-- The tokens of a twig as they stand one after the other, each with the relations and the tokens directly below it. -/
def mentions : Twig → List (Int × List (String × Int))
  | mk index below => (index, heads below) :: belowMentions below

/-- The tokens in what is below a token. -/
def belowMentions : List (String × Twig) → List (Int × List (String × Int))
  | [] => []
  | (_, twig) :: rest => mentions twig ++ belowMentions rest
end

end Twig

open Twig

/-! ## Growth -/

/-- What grows below a token, where some tokens were not expanded before. -/
structure Growth (unseen : List Int) where
  below : List (String × Twig)
  /-- The tokens that are not expanded afterwards either. -/
  rest : List Int
  le : rest.length ≤ unseen.length

/-- What grows from edges: the dependent of each, with its own edges if it was not expanded so far. -/
def grow (g : Graph) (unseen : List Int) : List Edge → Growth unseen
  | [] => ⟨[], unseen, Nat.le_refl _⟩
  | e :: es =>
    if h : e.dependent ∈ unseen then
      have hlt : (unseen.erase e.dependent).length < unseen.length := by
        rw [List.length_erase_of_mem h]
        exact Nat.sub_one_lt (Nat.ne_of_gt (List.length_pos_of_mem h))
      let inner := grow g (unseen.erase e.dependent) (g.branches e.dependent)
      have hle := inner.le
      let outer := grow g inner.rest es
      ⟨(e.relation, .mk e.dependent inner.below) :: outer.below, outer.rest, Nat.le_trans outer.le (Nat.le_trans hle (Nat.le_of_lt hlt))⟩
    else
      let outer := grow g unseen es
      ⟨(e.relation, .mk e.dependent []) :: outer.below, outer.rest, outer.le⟩
termination_by es => unseen.length * (g.arcs.length + 1) + es.length
decreasing_by
  · have hbranches := g.length_branches_le e.dependent
    have hfewer := Nat.mul_le_mul_right (g.arcs.length + 1) (Nat.succ_le_of_lt hlt)
    rw [Nat.succ_mul] at hfewer
    simp only [List.length_cons]
    omega
  · have hfewer := Nat.mul_le_mul_right (g.arcs.length + 1) (Nat.le_trans hle (Nat.le_of_lt hlt))
    exact Nat.lt_succ_of_le (Nat.add_le_add_right hfewer es.length)
  · exact Nat.lt_succ_self _

/-- The twigs of roots one after the other, each expanded when its turn comes, and the tokens that are not expanded afterwards. -/
def growRoots (g : Graph) (unseen : List Int) : List Int → List Twig × List Int
  | [] => ([], unseen)
  | root :: roots =>
    let inner := g.grow (unseen.erase root) (g.branches root)
    let outer := growRoots g inner.rest roots
    (.mk root inner.below :: outer.1, outer.2)

/-- The twigs that the compact form of a graph writes. -/
def twigs (g : Graph) : List Twig := (g.growRoots g.indices g.rootsInOrder).1

variable {g : Graph} {unseen roots : List Int} {e : Edge} {es : List Edge}

/-- A dependent that was not expanded so far is expanded. -/
theorem grow_expanded (h : e.dependent ∈ unseen) (es : List Edge) :
    (g.grow unseen (e :: es)).below =
        (e.relation, .mk e.dependent (g.grow (unseen.erase e.dependent) (g.branches e.dependent)).below) ::
          (g.grow (g.grow (unseen.erase e.dependent) (g.branches e.dependent)).rest es).below ∧
      (g.grow unseen (e :: es)).rest = (g.grow (g.grow (unseen.erase e.dependent) (g.branches e.dependent)).rest es).rest := by
  rw [grow, dif_pos h]
  exact ⟨rfl, rfl⟩

/-- A dependent that was expanded before stays bare. -/
theorem grow_bare (h : e.dependent ∉ unseen) (es : List Edge) :
    (g.grow unseen (e :: es)).below = (e.relation, .mk e.dependent []) :: (g.grow unseen es).below ∧
      (g.grow unseen (e :: es)).rest = (g.grow unseen es).rest := by
  rw [grow, dif_neg h]
  exact ⟨rfl, rfl⟩

theorem grow_nil (g : Graph) (unseen : List Int) : (g.grow unseen []).below = [] ∧ (g.grow unseen []).rest = unseen := by
  rw [grow]
  exact ⟨rfl, rfl⟩

/-! ## Texts -/

/-- The text of the twig of a token is how its expansion begins and what the pieces after that write. -/
theorem join_expansion (g : Graph) (showTags : Bool) (index : Int) (unseen roots : List Int) (pieces : List Piece)
    (hbelow : ∀ pieces, String.join (g.writePieces showTags unseen roots (mentions (g.branches index) ++ pieces)) =
      belowText g showTags (g.grow unseen (g.branches index)).below ++
        String.join (g.writePieces showTags (g.grow unseen (g.branches index)).rest roots pieces)) :
    String.join ((g.expansion showTags index).1 ++ g.writePieces showTags unseen roots ((g.expansion showTags index).2 ++ pieces)) =
      text g showTags (.mk index (g.grow unseen (g.branches index)).below) ++
        String.join (g.writePieces showTags (g.grow unseen (g.branches index)).rest roots pieces) := by
  unfold expansion
  cases hbranches : g.branches index with
  | nil =>
    have hnil := grow_nil g unseen
    simp [text, hnil, String.join_cons]
  | cons e es =>
    have hclose := hbelow (.close :: pieces)
    rw [hbranches, writePieces] at hclose
    have hsome : (g.grow unseen (e :: es)).below.isEmpty = false := by
      by_cases h : e.dependent ∈ unseen
      · rw [(grow_expanded h es).1, List.isEmpty_cons]
      · rw [(grow_bare h es).1, List.isEmpty_cons]
    simp only [List.isEmpty_cons, Bool.false_eq_true, if_false, text, hsome, List.append_assoc, List.cons_append, List.nil_append,
      String.join_cons]
    rw [mentions] at hclose
    rw [hclose]
    simp [String.append_assoc, String.join_cons]

/-- The pieces of edges write what grows from them. -/
theorem join_mentions (g : Graph) (showTags : Bool) (unseen roots : List Int) (es : List Edge) (pieces : List Piece) :
    String.join (g.writePieces showTags unseen roots (mentions es ++ pieces)) =
      belowText g showTags (g.grow unseen es).below ++ String.join (g.writePieces showTags (g.grow unseen es).rest roots pieces) := by
  induction unseen, es using Graph.grow.induct g generalizing pieces with
  | case1 unseen =>
    have hnil := grow_nil g unseen
    rw [hnil.1, hnil.2, belowText, String.empty_append]
    rfl
  | case2 unseen e es h hlt inner hle ih ih' =>
    have hgrown := grow_expanded (g := g) h es
    have hinner := join_expansion g showTags e.dependent (unseen.erase e.dependent) roots (mentions es ++ pieces) ih
    rw [ih'] at hinner
    rw [mentions, List.map_cons, List.cons_append, writePieces, dif_pos h, hgrown.1, hgrown.2, belowText]
    rw [mentions] at hinner
    simp only [String.join_cons, hinner, String.append_assoc]
    rfl
  | case3 unseen e es h ih =>
    have hgrown := grow_bare (g := g) h es
    have hrest := ih pieces
    rw [mentions] at hrest
    rw [mentions, List.map_cons, List.cons_append, writePieces, dif_neg h, hgrown.1, hgrown.2, belowText, text]
    simp only [String.join_cons, hrest, String.append_assoc, List.isEmpty_nil, if_true]

/-- A root is written as its twig. -/
theorem join_root (g : Graph) (showTags : Bool) (unseen roots : List Int) (root : Int) :
    String.join ((g.expansion showTags root).1 ++ g.writePieces showTags (unseen.erase root) roots (g.expansion showTags root).2) =
      text g showTags (.mk root (g.grow (unseen.erase root) (g.branches root)).below) ++
        String.join (g.writePieces showTags (g.grow (unseen.erase root) (g.branches root)).rest roots []) := by
  have hroot := join_expansion g showTags root (unseen.erase root) roots []
    (join_mentions g showTags (unseen.erase root) roots (g.branches root))
  rwa [List.append_nil] at hroot

/-- Further roots are written as their twigs, each behind a blank. -/
theorem join_growRoots (g : Graph) (showTags : Bool) (unseen roots : List Int) :
    String.join (g.writePieces showTags unseen roots []) =
      String.join ((g.growRoots unseen roots).1.map fun twig => " " ++ twig.text g showTags) := by
  induction roots generalizing unseen with
  | nil =>
    rw [writePieces]
    rfl
  | cons root roots ih =>
    rw [writePieces, growRoots, List.cons_append, String.join_cons, join_root, ih, List.map_cons, String.join_cons, String.append_assoc]

/-- Texts with blanks between them are the first one and the others, each behind a blank. -/
theorem intercalate_blank (s : String) (l : List String) : " ".intercalate (s :: l) = s ++ String.join (l.map (" " ++ ·)) := by
  induction l generalizing s with
  | nil => simp [String.join_nil]
  | cons t l ih => rw [String.intercalate_cons_cons, ih, List.map_cons, String.join_cons, String.append_assoc, String.append_assoc]

/-- The roots in order are the roots. -/
theorem Sound.perm_rootsInOrder (hg : g.Sound) : g.rootsInOrder.Perm g.roots := by
  have hkept : ∀ l : List Int, (∀ i ∈ l, g.hasToken i) → (l.filterMap fun i => (g.token? i).map (i, ·)).map (·.1) = l := by
    intro l hl
    induction l with
    | nil => rfl
    | cons i l ih =>
      obtain ⟨hi, hl⟩ := List.forall_mem_cons.1 hl
      obtain ⟨t, ht⟩ := Option.isSome_iff_exists.1 hi
      rw [List.filterMap_cons, ht]
      exact congrArg (i :: ·) (ih hl)
  refine ((Order.perm_sortBy _ _).map _).trans ?_
  rw [hkept g.roots hg.roots]

/-- A rooted graph is written as its twigs, with blanks between them. -/
theorem compact_eq_text (hg : g.Sound) (hroots : g.roots ≠ []) (showTags : Bool) :
    g.compact showTags = " ".intercalate (g.twigs.map (Twig.text g showTags)) := by
  unfold compact twigs
  cases horder : g.rootsInOrder with
  | nil => exact absurd (horder ▸ hg.perm_rootsInOrder).nil_eq.symm hroots
  | cons root roots =>
    rw [growRoots, List.map_cons, intercalate_blank]
    simp only [join_root, join_growRoots, List.map_map]
    rfl

end Treebank.Graph

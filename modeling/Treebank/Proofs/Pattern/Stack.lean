import Treebank.Proofs.Pattern.Step

/-!
# Stacks of what is open

What is open stands on a ground: the constraints that the token at the top of the part has already, or the brackets around it. Moves
do not look at the ground (`Regrounded.moves`), but for the names that a negation keeps out.
-/

namespace Treebank.Pattern

/-- The same stack on two grounds: in the first, the token at the top of the part has the constraints `outer`; in the second, what is
open stands on the frames `below` instead. -/
inductive SameStack (outer : List Constraint) (below : List Frame) :
    List Frame → List Constraint → List Frame → List Constraint → Prop where
  | ground (items : List Constraint) : SameStack outer below [] (items ++ outer) below items
  | group {frames frames' : List Frame} {items items' : List Constraint} (mode : Mode) (branches top : List Constraint)
      (h : SameStack outer below frames items frames' items') :
      SameStack outer below (.group mode items branches :: frames) top (.group mode items' branches :: frames') top
  | target {frames frames' : List Frame} {items items' : List Constraint} (mode : Mode) (operator : Operator) (place : Place)
      (top : List Constraint) (h : SameStack outer below frames items frames' items') :
      SameStack outer below (.target mode operator place items :: frames) top
        (.target mode operator place items' :: frames') top

variable {outer items items' : List Constraint} {below frames frames' : List Frame}

/-- One more constraint on the present token. -/
theorem SameStack.cons (h : SameStack outer below frames items frames' items') (c : Constraint) :
    SameStack outer below frames (c :: items) frames' (c :: items') := by
  cases h with
  | ground items => exact .ground (c :: items')
  | group mode branches top h => exact .group mode branches _ h
  | target mode operator place top h => exact .target mode operator place _ h

/-- A negation spans the second stack if it spans the first one or the frames below. -/
theorem SameStack.any_isNegated (h : SameStack outer below frames items frames' items') :
    frames'.any Frame.isNegated = (frames.any Frame.isNegated || below.any Frame.isNegated) := by
  induction h with
  | ground items => rfl
  | group mode branches top h ih => simp only [List.any_cons, ih, Bool.or_assoc, Frame.isNegated]
  | target mode operator place top h ih => simp only [List.any_cons, ih, Bool.or_assoc, Frame.isNegated]

/-- At the bottom of the first stack. -/
theorem SameStack.of_nil (h : SameStack outer below [] items frames' items') : items = items' ++ outer ∧ frames' = below := by
  cases h
  exact ⟨rfl, rfl⟩

/-- Where nothing is open on the second ground, nothing is on the first one. -/
theorem SameStack.nil_of_nil (h : SameStack outer below frames items frames' items') (hn : frames' = []) : frames = [] := by
  cases h with
  | ground items => rfl
  | group mode branches top h => cases hn
  | target mode operator place top h => cases hn

/-- On the same ground the same stack is the same. -/
theorem SameStack.eq (h : SameStack [] [] frames items frames' items') : frames' = frames ∧ items' = items := by
  induction h with
  | ground items => exact ⟨rfl, (List.append_nil items).symm⟩
  | group mode branches top h ih => exact ⟨by rw [ih.1, ih.2], rfl⟩
  | target mode operator place top h ih => exact ⟨by rw [ih.1, ih.2], rfl⟩

/-- Below a bracket the stacks are the same. -/
theorem SameStack.of_group {mode : Mode} {branches top top' : List Constraint}
    (h : SameStack outer below (.group mode items branches :: frames) top frames' top') :
    ∃ rest inner, frames' = .group mode inner branches :: rest ∧ top' = top ∧ SameStack outer below frames items rest inner := by
  cases h with
  | group mode branches top h => exact ⟨_, _, rfl, rfl, h⟩

/-- Below a parenthesis the stacks are the same. -/
theorem SameStack.of_target {mode : Mode} {operator : Operator} {place : Place} {top top' : List Constraint}
    (h : SameStack outer below (.target mode operator place items :: frames) top frames' top') :
    ∃ rest inner, frames' = .target mode operator place inner :: rest ∧ top' = top ∧
      SameStack outer below frames items rest inner := by
  cases h with
  | target mode operator place top h => exact ⟨_, _, rfl, rfl, h⟩

namespace Draft

variable {d d' e : Draft} {m : Move}

/-- The same draft on two grounds. -/
structure Regrounded (outer : List Constraint) (below : List Frame) (d e : Draft) : Prop where
  parts : e.parts = d.parts
  place : e.place = d.place
  enclosed : e.enclosed = d.enclosed
  names : e.names = d.names
  stack : SameStack outer below d.frames d.items e.frames e.items

/-- A draft stands on its own ground. -/
theorem regrounded_refl (d : Draft) : Regrounded [] [] d d := by
  refine ⟨rfl, rfl, rfl, rfl, ?_⟩
  obtain ⟨parts, place, enclosed, frames, items, names⟩ := d
  induction frames generalizing items with
  | nil =>
    have : SameStack [] [] [] (items ++ []) [] items := .ground items
    rwa [List.append_nil] at this
  | cons f frames ih =>
    cases f with
    | group mode outer branches => exact .group mode branches items (ih outer)
    | target mode operator place outer => exact .target mode operator place items (ih outer)

/-- A move that is made on one ground is made on another one. -/
theorem Regrounded.moves (h : Regrounded outer below d e) (hm : d.Moves m d') :
    ∃ e', e.Moves m e' ∧ Regrounded outer below d' e' := by
  obtain ⟨hparts, hplace, henclosed, hnames, hstack⟩ := h
  cases hm with
  | pass => exact ⟨e, .pass, hparts, hplace, henclosed, hnames, hstack⟩
  | openBracket mode => exact ⟨_, .openBracket mode, hparts, hplace, henclosed, hnames, .group mode [] [] hstack⟩
  | relation mode operator target names opens =>
    refine ⟨_, .relation mode operator target names opens, ?_⟩
    cases opens with
    | false => exact ⟨hparts, hplace, henclosed, rfl, hstack.cons _⟩
    | true => exact ⟨hparts, hplace, henclosed, rfl, .target mode operator target [] hstack⟩
  | bar hd hbranch =>
    rename_i mode outer branches frames branch
    rw [hd] at hstack
    obtain ⟨rest, inner, he, hitems, hbelow⟩ := hstack.of_group
    refine ⟨_, .bar he (hitems ▸ hbranch), hparts, hplace, henclosed, hnames, ?_⟩
    exact .group mode (branch :: branches) [] hbelow
  | closeBracket hd hbranch =>
    rw [hd] at hstack
    obtain ⟨rest, inner, he, hitems, hbelow⟩ := hstack.of_group
    exact ⟨_, .closeBracket he (hitems ▸ hbranch), hparts, hplace, henclosed, hnames, hbelow.cons _⟩
  | closeTarget hd =>
    rw [hd] at hstack
    obtain ⟨rest, inner, he, hitems, hbelow⟩ := hstack.of_target
    refine ⟨_, .closeTarget he, hparts, hplace, henclosed, hnames, ?_⟩
    rw [hitems]
    exact hbelow.cons _

@[simp]
theorem names_relate (d : Draft) (mode : Mode) (operator : Operator) (target : Place) (names : Names) (opens : Bool) :
    (d.relate mode operator target names opens).names = names := by
  cases opens <;> rfl

/-- A move stays within its part. -/
theorem Moves.part (hm : d.Moves m d') : d'.parts = d.parts ∧ d'.place = d.place ∧ d'.enclosed = d.enclosed := by
  cases hm with
  | relation mode operator target names opens => cases opens <;> exact ⟨rfl, rfl, rfl⟩
  | _ => exact ⟨rfl, rfl, rfl⟩

/-- A move keeps the names. -/
theorem Moves.names (hm : d.Moves m d') (hallows : d.Allows m) : d.names.Extends d'.names := by
  cases hm with
  | relation mode operator target names opens =>
    rw [names_relate]
    exact hallows.1
  | _ => exact d.names.extends_refl

/-- Names that may come in on one ground may come in on another one, unless a negation below keeps them out. -/
theorem Regrounded.admits (h : Regrounded outer below d e) {mode : Mode} {names : Names} (ha : d.Admits mode names)
    (hbelow : below.any Frame.isNegated = true → names.size = d.names.size) : e.Admits mode names := by
  unfold Admits at ha ⊢
  rw [h.names, h.stack.any_isNegated]
  refine ⟨ha.1, fun hu => ?_⟩
  rw [← Bool.or_assoc, Bool.or_eq_true] at hu
  rcases hu with hu | hu
  · exact ha.2 hu
  · exact hbelow hu

/-- A move that may be made on one ground may be made on another one, unless a negation below keeps its names out. -/
theorem Regrounded.allows (h : Regrounded outer below d e) (hm : d.Moves m d') (ha : d.Allows m)
    (hbelow : below.any Frame.isNegated = true → d'.names.size = d.names.size) : e.Allows m := by
  cases hm with
  | relation mode operator target names opens =>
    rw [names_relate] at hbelow
    exact h.admits ha hbelow
  | _ => trivial

end Draft

/-! ## Modes at the bottom -/

/-- A constraint with the mode of what is open, in the place of the one that it will become. -/
def Frame.standIn : Frame → Constraint
  | group mode _ _ => .all mode []
  | target mode operator place _ => .relation mode operator place none

/-- The constraints before what is open. -/
def Frame.before : Frame → List Constraint
  | group _ outer _ => outer
  | target _ _ _ outer => outer

theorem Frame.isNegated_eq (f : Frame) : f.isNegated = (f.standIn.mode == .negated) := by cases f <;> rfl

/-- The modes of the constraints on the token at the top of a part, with that of the outermost bracket or parenthesis. -/
def bottomModes : List Frame → List Constraint → List Mode
  | [], items => items.map Constraint.mode
  | f :: frames, _ => bottomModes frames (f.standIn :: f.before)

/-- A constraint more on the present token adds its mode, or none. -/
theorem bottomModes_suffix_cons (frames : List Frame) (c : Constraint) (items : List Constraint) :
    bottomModes frames items <:+ bottomModes frames (c :: items) := by
  cases frames with
  | nil => exact List.suffix_cons _ _
  | cons f frames => exact List.suffix_refl _

/-- Only the modes of constraints matter. -/
theorem bottomModes_cons_congr (frames : List Frame) {c c' : Constraint} (h : c.mode = c'.mode) (items : List Constraint) :
    bottomModes frames (c :: items) = bottomModes frames (c' :: items) := by
  cases frames with
  | nil => simp only [bottomModes, List.map_cons, h]
  | cons f frames => rfl

/-- If everything at the bottom is negated, so is the last constraint, or a negation spans what is open. -/
theorem isNegated_of_bottomModes {c : Constraint} (h : ∀ mode ∈ bottomModes frames (c :: items), mode = .negated) :
    (c.mode == .negated || frames.any Frame.isNegated) = true := by
  induction frames generalizing c items with
  | nil =>
    have hc := h c.mode (List.mem_cons_self ..)
    rw [hc]
    rfl
  | cons f frames ih =>
    have hf := ih h
    rw [List.any_cons, f.isNegated_eq, hf, Bool.or_true]

theorem mode_bracket (mode : Mode) (branches : List Constraint) : (bracket mode branches).mode = mode := by
  unfold bracket
  split <;> rfl

namespace Draft

variable {d d' : Draft} {m : Move}

/-- Names come in with a constraint only if something at the bottom is not negated then. -/
theorem Admits.size_eq {mode : Mode} {names : Names} (ha : d.Admits mode names) {c : Constraint} (hc : c.mode = mode)
    (h : ∀ mode ∈ bottomModes d.frames (c :: d.items), mode = .negated) : names.size = d.names.size := by
  have hu := isNegated_of_bottomModes h
  rw [hc] at hu
  exact ha.2 hu

/-- A move keeps the modes at the bottom. If all of them are negated then, it brought in no name. -/
theorem Moves.bottomModes (hm : d.Moves m d') (hallows : d.Allows m) :
    Pattern.bottomModes d.frames d.items <:+ Pattern.bottomModes d'.frames d'.items ∧
      ((∀ mode ∈ Pattern.bottomModes d'.frames d'.items, mode = .negated) → d'.names.size = d.names.size) := by
  cases hm with
  | pass => exact ⟨List.suffix_refl _, fun _ => rfl⟩
  | openBracket mode => exact ⟨bottomModes_suffix_cons d.frames _ d.items, fun _ => rfl⟩
  | relation mode operator target names opens =>
    cases opens with
    | false => exact ⟨bottomModes_suffix_cons d.frames _ d.items, hallows.size_eq rfl⟩
    | true => exact ⟨bottomModes_suffix_cons d.frames _ d.items, hallows.size_eq rfl⟩
  | bar hd hbranch =>
    rw [hd]
    exact ⟨List.suffix_refl _, fun _ => rfl⟩
  | closeBracket hd hbranch =>
    rename_i mode outer branches frames branch
    have hsame : Pattern.bottomModes frames (bracket mode (branch :: branches).reverse :: outer) =
        Pattern.bottomModes frames (.all mode [] :: outer) := bottomModes_cons_congr frames (mode_bracket mode _) outer
    refine ⟨?_, fun _ => rfl⟩
    simp only [hd, hsame]
    exact List.suffix_refl _
  | closeTarget hd =>
    rename_i mode operator target outer frames
    have hsame : Pattern.bottomModes frames (.relation mode operator target (conjunction? d.items) :: outer) =
        Pattern.bottomModes frames (.relation mode operator target none :: outer) :=
      bottomModes_cons_congr frames (by rfl) outer
    refine ⟨?_, fun _ => rfl⟩
    simp only [hd, hsame]
    exact List.suffix_refl _

end Draft

end Treebank.Pattern

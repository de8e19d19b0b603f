import Treebank.Match.Search
import Treebank.Proofs.Match.Bracket
import Treebank.Proofs.Pattern.Outcome

/-!
# Flat patterns

A plain group shows in writing by its members alone, so what is read again from a written pattern has none within another list of
constraints. Without them a pattern has the same text and the same matches.
-/

namespace Treebank

namespace Pattern

/-! ## Without plain groups -/

/-- Constraints on one token as one. -/
def whole : List Constraint → Constraint
  | [c] => c
  | cs => .all .plain cs

mutual
/-- A constraint as those that its text shows: a plain group gives way to its members, at any depth. -/
def Constraint.flat : Constraint → List Constraint
  | .relation mode operator target none => [.relation mode operator target none]
  | .relation mode operator target (some inner) => [.relation mode operator target (conjunction? inner.flat.reverse)]
  | .all mode children =>
    match mode with
    | .plain => flatAll children
    | mode => [.all mode (flatAll children)]
  | .any mode children => [.any mode (flatEach children)]

/-- Constraints on one token without plain groups. -/
def flatAll : List Constraint → List Constraint
  | [] => []
  | c :: cs => c.flat ++ flatAll cs

/-- Alternatives, each without plain groups but for one around all of it. -/
def flatEach : List Constraint → List Constraint
  | [] => []
  | c :: cs => whole c.flat :: flatEach cs
end

/-- A part without plain groups. -/
def Part.flat (p : Part) : Part := ⟨p.place, p.constraint.bind fun c => conjunction? c.flat.reverse⟩

variable {c : Constraint} {children : List Constraint}

theorem conjunction?_reverse {cs : List Constraint} (hne : cs ≠ []) : conjunction? cs.reverse = some (whole cs) := by
  match cs, hne with
  | [c], _ => rfl
  | c :: c' :: cs, _ =>
    unfold conjunction?
    split
    · rename_i e
      simp at e
    · rename_i e
      have := congrArg List.length e
      simp at this
    · rw [List.reverse_reverse]
      rfl

/-- Something is left of a constraint that was read. -/
theorem flat_ne_nil (h : c.IsRead) : c.flat ≠ [] := by
  induction h with
  | relation mode ho ht => simp [Constraint.flat]
  | target mode ho ht hinner ih => simp [Constraint.flat]
  | all mode hne hgroup h ih =>
    rename_i children
    cases mode with
    | plain =>
      obtain ⟨c, cs, rfl⟩ := List.exists_cons_of_ne_nil hne
      simp [Constraint.flat, flatAll, ih c (List.mem_cons_self ..)]
    | negated => simp [Constraint.flat]
    | optional => simp [Constraint.flat]
  | any mode hmany h ih => simp [Constraint.flat]

theorem flatAll_ne_nil (hne : children ≠ []) (h : ∀ c ∈ children, c.IsRead) : flatAll children ≠ [] := by
  obtain ⟨c, cs, rfl⟩ := List.exists_cons_of_ne_nil hne
  simp [flatAll, flat_ne_nil (h c (List.mem_cons_self ..))]

/-- What is no single group does not become one. -/
theorem flatAll_ne_group (hgroup : ∀ m cs, children ≠ [.all m cs]) (h : ∀ c ∈ children, c.IsRead) (m : Mode)
    (cs : List Constraint) : flatAll children ≠ [.all m cs] := by
  intro e
  match children, hgroup, h with
  | [], _, _ => cases e
  | [c], hgroup, _ =>
    simp only [flatAll, List.append_nil] at e
    cases c with
    | relation mode operator target inner => cases inner <;> cases e
    | all mode children => exact hgroup mode children rfl
    | any mode children => cases e
  | c :: c' :: rest, _, h =>
    obtain ⟨hc, h⟩ := List.forall_mem_cons.1 h
    have hlength := congrArg List.length e
    have hfirst := List.length_pos_iff.2 (flat_ne_nil hc)
    have hrest := List.length_pos_iff.2 (flatAll_ne_nil (List.cons_ne_nil c' rest) h)
    simp only [flatAll, List.length_append, List.length_singleton] at hlength hrest
    omega

/-- A bracket around constraints that are no single group has them as its members. -/
theorem bracket_whole (mode : Mode) {cs : List Constraint} (hgroup : ∀ m children, cs ≠ [.all m children]) :
    bracket mode [whole cs] = .all mode cs := by
  unfold whole
  split
  · rename_i c
    cases c with
    | relation mode' operator target inner => rfl
    | all mode' children => exact absurd rfl (hgroup mode' children)
    | any mode' children => rfl
  · rfl

/-! ## The same text -/

theorem texts_append (cs cs' : List Constraint) : texts (cs ++ cs') = texts cs ++ texts cs' := by
  induction cs with
  | nil => rfl
  | cons c cs ih => simp only [List.cons_append, texts, ih]

theorem texts_ne_nil {cs : List Constraint} (hne : cs ≠ []) : texts cs ≠ [] := by
  cases cs with
  | nil => exact absurd rfl hne
  | cons c cs => simp [texts]

theorem text_whole (cs : List Constraint) : (whole cs).text = " ".intercalate (texts cs) := by
  unfold whole
  split
  · simp [texts]
  · simp [Constraint.text]

/-- The text of a relation, with what is on its target. -/
theorem text_relation_some (mode : Mode) (operator : Operator) (target : Place) (inner : Constraint) :
    (Constraint.relation mode operator target (some inner)).text =
      mode.mark ++ operator.text ++ " (" ++ target.text ++ " " ++ inner.text ++ ")" := by
  rw [Constraint.text]

theorem intercalate_flatAll (h : ∀ c ∈ children, c.IsRead) (htext : ∀ c ∈ children, " ".intercalate (texts c.flat) = c.text) :
    " ".intercalate (texts (flatAll children)) = " ".intercalate (texts children) := by
  induction children with
  | nil => rfl
  | cons c cs ih =>
    obtain ⟨hc, h⟩ := List.forall_mem_cons.1 h
    obtain ⟨hctext, htext⟩ := List.forall_mem_cons.1 htext
    cases cs with
    | nil => simp [flatAll, texts, hctext]
    | cons c' cs =>
      have hne := texts_ne_nil (flatAll_ne_nil (List.cons_ne_nil c' cs) h)
      rw [flatAll, texts_append, String.intercalate_append_of_ne_nil (texts_ne_nil (flat_ne_nil hc)) hne, ih h htext, hctext]
      simp only [texts, String.intercalate_cons_cons]

/-- Without plain groups a constraint has the same text. -/
theorem intercalate_flat (h : c.IsRead) : " ".intercalate (texts c.flat) = c.text := by
  induction h with
  | relation mode ho ht => simp [Constraint.flat, texts]
  | target mode ho ht hinner ih =>
    rw [Constraint.flat, conjunction?_reverse (flat_ne_nil hinner), texts, texts, String.intercalate_singleton, text_relation_some,
      text_relation_some, text_whole, ih]
  | all mode hne hgroup h ih =>
    have hbody := intercalate_flatAll h ih
    cases mode with
    | plain => simpa [Constraint.flat, Constraint.text] using hbody
    | negated => simp [Constraint.flat, Constraint.text, texts, hbody]
    | optional => simp [Constraint.flat, Constraint.text, texts, hbody]
  | any mode hmany h ih =>
    rename_i children
    have hbody : texts (flatEach children) = texts children := by
      clear hmany h
      induction children with
      | nil => rfl
      | cons c cs ihcs =>
        obtain ⟨hc, ih⟩ := List.forall_mem_cons.1 ih
        rw [flatEach, texts, texts, text_whole, hc, ihcs ih]
    simp [Constraint.flat, Constraint.text, texts, hbody]

/-- Without plain groups a part has the same text. -/
theorem text_flat {p : Part} (h : p.IsRead) : p.flat.text = p.text := by
  obtain ⟨place, constraint⟩ := p
  cases constraint with
  | none => rfl
  | some c =>
    have hc := h.2 c rfl
    simp only [Part.text, Part.flat, Option.bind_some, conjunction?_reverse (flat_ne_nil hc), Option.map_some, Option.getD_some,
      text_whole, intercalate_flat hc]

/-! ## The same solutions -/

theorem solve_whole (s : Scope) (index : Int) (b : Bindings) (cs : List Constraint) :
    (whole cs).solve s index b = solveAll s index b cs := by
  unfold whole
  split
  · simp [solveAll]
  · rfl

/-- Without plain groups a constraint has the same solutions. -/
theorem solveAll_flat (h : c.IsRead) (s : Scope) (index : Int) (b : Bindings) : solveAll s index b c.flat = c.solve s index b := by
  induction h generalizing index b with
  | relation mode ho ht => simp [Constraint.flat, solveAll]
  | target mode ho ht hinner ih =>
    rw [Constraint.flat, conjunction?_reverse (flat_ne_nil hinner)]
    simp [solveAll, Constraint.solve, solve_whole, ih]
  | all mode hne hgroup h ih =>
    rename_i children
    have hbody : ∀ b, solveAll s index b (flatAll children) = solveAll s index b children := by
      clear hne hgroup h
      induction children with
      | nil => exact fun b => rfl
      | cons c cs ihcs =>
        obtain ⟨hc, ih⟩ := List.forall_mem_cons.1 ih
        intro b
        rw [flatAll, solveAll_append, hc, solveAll]
        exact List.flatMap_congr fun b _ => ihcs ih b
    cases mode with
    | plain => simpa [Constraint.flat, Constraint.solve, Mode.select] using hbody b
    | negated => simp [Constraint.flat, solveAll, Constraint.solve, hbody]
    | optional => simp [Constraint.flat, solveAll, Constraint.solve, hbody]
  | any mode hmany h ih =>
    rename_i children
    have hbody : solveAny s index b (flatEach children) = solveAny s index b children := by
      clear hmany h
      induction children with
      | nil => rfl
      | cons c cs ihcs =>
        obtain ⟨hc, ih⟩ := List.forall_mem_cons.1 ih
        rw [flatEach, solveAny, solveAny, solve_whole, hc, ihcs ih]
    simp [Constraint.flat, solveAll, Constraint.solve, hbody]

/-- Without plain groups a part is filled in the same ways. -/
theorem solve_flat {p : Part} (h : p.IsRead) (s : Scope) (b : Bindings) : p.flat.solve s b = p.solve s b := by
  obtain ⟨place, constraint⟩ := p
  have hoption : ∀ index b, solveOption s index b (constraint.bind fun c => conjunction? c.flat.reverse) =
      solveOption s index b constraint := by
    intro index b
    cases constraint with
    | none => rfl
    | some c =>
      rw [Option.bind_some, solveOption_conjunction?, List.reverse_reverse, solveAll_flat (h.2 c rfl)]
      rfl
  simp only [Part.solve, Part.solveAt, Part.flat, hoption]

theorem solveParts_flat {parts : List Part} (h : ∀ p ∈ parts, p.IsRead) (s : Scope) (b : Bindings) :
    solveParts s b (parts.map Part.flat) = solveParts s b parts := by
  induction parts generalizing b with
  | nil => rfl
  | cons p ps ih =>
    obtain ⟨hp, h⟩ := List.forall_mem_cons.1 h
    rw [List.map_cons, solveParts, solveParts, solve_flat hp]
    exact List.flatMap_congr fun found _ => ih h found.2

end Pattern

open Pattern

/-- A pattern without plain groups. -/
def Pattern.flat (p : Pattern) : Pattern := { p with source := p.text, parts := p.parts.map Part.flat }

/-- Without plain groups a pattern has the same text. -/
theorem Pattern.text_flat_eq {p : Pattern} (h : ∀ part ∈ p.parts, part.IsRead) : p.flat.text = p.text := by
  unfold Pattern.text Pattern.flat
  rw [List.map_map]
  exact congrArg _ (List.map_congr_left fun part hpart => text_flat (h part hpart))

/-- Without plain groups a pattern has the same matches. -/
theorem Matcher.all_flat {p : Pattern} (h : ∀ part ∈ p.parts, part.IsRead) (s : Scope) (initial : List (String × Int)) :
    Matcher.all ⟨p.flat, s, initial⟩ = Matcher.all ⟨p, s, initial⟩ := by
  obtain ⟨source, parts, nodeNames, edgeNames, options⟩ := p
  cases parts with
  | nil => rfl
  | cons part parts =>
    obtain ⟨hpart, h⟩ := List.forall_mem_cons.1 h
    simp only [Matcher.all, Pattern.flat, List.map_cons, solve_flat hpart, solveParts_flat h]

end Treebank

import Treebank.Proofs.Pattern.Lexer
import Treebank.Proofs.Pattern.Names

/-!
# Steps of reading

A step of reading takes a move off the text and makes it on the stack of what is open. Which move it is does not depend on the stack,
as long as the names are the same, nor on what follows, as long as no word runs into it (`step_makes_move`).
-/

namespace Treebank.Pattern

variable {cs more rest text : List Char} {i i' : Input}

/-! ## Places -/

/-- An operator that was read. -/
def Operator.IsRead (o : Operator) : Prop := ∃ i cs rest, takeOperator i cs = .ok (o, rest)

/-- How a place is read: its description, and its name if it has one. -/
def ReadsPlace (i : Input) (cs : List Char) (p : Place) (rest : List Char) : Prop :=
  ∃ rest₁, takeDescription i cs = .ok (p.description, rest₁) ∧ takeName i .nodeNameMissing rest₁ = .ok (p.name, rest)

/-- A place that was read. -/
def Place.IsRead (p : Place) : Prop := ∃ i cs rest, ReadsPlace i cs p rest

variable {names names' : Names} {u u' : Bool} {place : Place}

/-- A place is read alike whatever follows. -/
theorem readsPlace_append (hs : Stops more) (h : ReadsPlace i cs place rest) : ReadsPlace i' (cs ++ more) place (rest ++ more) := by
  obtain ⟨rest₁, hd, hname⟩ := h
  exact ⟨_, local_takeDescription hs hd, local_takeName _ hs hname⟩

/-- A place that is read adds the name that it mentions. -/
theorem takePlace_eq_ok_iff : takePlace i names u cs = .ok ((place, names'), rest) ↔
    ReadsPlace i cs place rest ∧ names.register (under u place.mentions) = .ok names' := by
  have hone : ∀ name d, names.register (under u [(false, .node name d)]) = names.addNode u name d := by
    intro name d
    rw [under, List.map_singleton, register_singleton, Bool.or_false, Names.addMention]
  unfold takePlace Place.mentions
  constructor
  · intro h
    obtain ⟨⟨d, rest₁⟩, hd, h⟩ := bind_eq_ok_iff.1 h
    obtain ⟨⟨name, rest₂⟩, hname, h⟩ := bind_eq_ok_iff.1 h
    cases name with
    | none =>
      cases h
      exact ⟨⟨rest₁, hd, hname⟩, rfl⟩
    | some name =>
      simp only at h
      cases hadd : names.addNode u name d with
      | error fault =>
        rw [hadd] at h
        cases h
      | ok names₁ =>
        rw [hadd] at h
        cases h
        exact ⟨⟨rest₁, hd, hname⟩, (hone name d).trans hadd⟩
  · rintro ⟨⟨rest₁, hd, hname⟩, h⟩
    refine bind_eq_ok_iff.2 ⟨_, hd, bind_eq_ok_iff.2 ⟨_, hname, ?_⟩⟩
    obtain ⟨d, name⟩ := place
    cases name with
    | none =>
      cases h
      rfl
    | some name =>
      have hadd : names.addNode u name d = .ok names' := (hone name d).symm.trans h
      simp only [hadd]
      rfl

/-- A place is read alike whatever follows, and alike under a negation if its name is known. -/
theorem takePlace_append (hs : Stops more) (h : takePlace i names u cs = .ok ((place, names'), rest))
    (hu : u' = true → names'.size = names.size) : takePlace i' names u' (cs ++ more) = .ok ((place, names'), rest ++ more) := by
  obtain ⟨hread, hnames⟩ := takePlace_eq_ok_iff.1 h
  exact takePlace_eq_ok_iff.2 ⟨readsPlace_append hs hread, register_under_eq_ok hnames hu⟩

/-- A parenthesis is passed behind blanks, whatever follows. -/
theorem takeParenthesis_append (h : Text.trimStart cs ≠ []) (more : List Char) :
    takeParenthesis (Text.trimStart (cs ++ more)) =
      ((takeParenthesis (Text.trimStart cs)).1, (takeParenthesis (Text.trimStart cs)).2 ++ more) := by
  cases ht : Text.trimStart cs with
  | nil => exact absurd ht h
  | cons c text =>
    rw [trimStart_append ht]
    by_cases hc : c = '('
    · subst hc
      rfl
    · simp [takeParenthesis, hc]

/-! ## Moves -/

/-- What a step of reading does within a part. -/
inductive Move where
  /-- Passes a mark between constraints. -/
  | pass
  /-- Opens a bracket. -/
  | openBracket (mode : Mode)
  /-- Reads a relation with its target, and opens a parenthesis around that or not; `names` are the names afterwards. -/
  | relation (mode : Mode) (operator : Operator) (target : Place) (names : Names) (opens : Bool)
  /-- Ends a branch of a bracket, before another one. -/
  | bar
  | closeBracket
  | closeTarget

/-- What a move makes of a draft, if the stack of what is open allows for it. -/
inductive Draft.Moves (d : Draft) : Move → Draft → Prop where
  | pass : d.Moves .pass d
  | openBracket (mode : Mode) :
      d.Moves (.openBracket mode) { d with frames := .group mode d.items [] :: d.frames, items := [] }
  | relation (mode : Mode) (operator : Operator) (target : Place) (names : Names) (opens : Bool) :
      d.Moves (.relation mode operator target names opens) (d.relate mode operator target names opens)
  | bar {mode : Mode} {outer branches : List Constraint} {frames : List Frame} {branch : Constraint}
      (hd : d.frames = .group mode outer branches :: frames) (hbranch : conjunction? d.items = some branch) :
      d.Moves .bar { d with frames := .group mode outer (branch :: branches) :: frames, items := [] }
  | closeBracket {mode : Mode} {outer branches : List Constraint} {frames : List Frame} {branch : Constraint}
      (hd : d.frames = .group mode outer branches :: frames) (hbranch : conjunction? d.items = some branch) :
      d.Moves .closeBracket { d with frames := frames, items := bracket mode (branch :: branches).reverse :: outer }
  | closeTarget {mode : Mode} {operator : Operator} {target : Place} {outer : List Constraint} {frames : List Frame}
      (hd : d.frames = .target mode operator target outer :: frames) :
      d.Moves .closeTarget
        { d with frames := frames, items := .relation mode operator target (conjunction? d.items) :: outer }

/-- Whether names may come in with a constraint of a mode: under a negation none does. -/
def Draft.Admits (d : Draft) (mode : Mode) (names : Names) : Prop :=
  d.names.Extends names ∧ ((mode == .negated || d.frames.any Frame.isNegated) = true → names.size = d.names.size)

/-- Whether the names of a move may come in. -/
def Draft.Allows (d : Draft) : Move → Prop
  | .relation mode _ _ names _ => d.Admits mode names
  | _ => True

/-- Whether the constraints on the token at the top of a part end here. -/
def Draft.AtEnd (d : Draft) (cs : List Char) : Prop := d.frames = [] ∧ ∀ c ∈ (Text.trimStart cs).head?, isEndMark c = true

/-- A step that makes a move `m`, and makes it on any stack and whatever follows. -/
def Draft.Makes (d d' : Draft) (read : Input → Draft → List Char → Except CompileError Progress) (cs rest : List Char)
    (m : Move) : Prop :=
  d.Allows m ∧ d.Moves m d' ∧
    ∀ {i : Input} {more : List Char} {e e' : Draft}, Stops more → e.names = d.names → e.Allows m → e.Moves m e' →
      read i e (cs ++ more) = .ok (.reading e' (rest ++ more))

/-- Whether what a move brings in was read, and its names added to those before. -/
def Draft.Takes (d : Draft) : Move → Prop
  | .relation mode operator target names _ =>
    operator.IsRead ∧ target.IsRead ∧
      d.names.register (under (mode == .negated || d.frames.any Frame.isNegated) (operator.mentions ++ target.mentions)) = .ok names
  | _ => True

variable {d d' : Draft}

/-- A relation is read as its operator and, in a parenthesis or not, its target; the names that they mention are added. -/
theorem takeRelation_eq_ok_iff {mode : Mode} {progress : Progress} : d.takeRelation i mode text = .ok progress ↔
    ∃ operator rest₁ opens rest₂ target rest names, takeOperator i text = .ok (operator, rest₁) ∧
      takeParenthesis (Text.trimStart rest₁) = (opens, rest₂) ∧ ReadsPlace i rest₂ target rest ∧
        d.names.register (under (mode == .negated || d.frames.any Frame.isNegated) (operator.mentions ++ target.mentions)) = .ok names ∧
          progress = .reading (d.relate mode operator target names opens) rest := by
  unfold Draft.takeRelation
  simp only [under_append, register_append_eq_ok_iff]
  constructor
  · intro h
    obtain ⟨⟨operator, rest₁⟩, ho, h⟩ := bind_eq_ok_iff.1 h
    obtain ⟨names₁, hedge, h⟩ := bind_eq_ok_iff.1 h
    obtain ⟨⟨⟨target, names₂⟩, rest⟩, htarget, h⟩ := bind_eq_ok_iff.1 h
    obtain ⟨hread, hnode⟩ := takePlace_eq_ok_iff.1 htarget
    cases h
    exact ⟨operator, rest₁, _, _, target, rest, names₂, ho, rfl, hread, ⟨names₁, addEdgeOf_eq_ok_iff.1 hedge, hnode⟩, rfl⟩
  · rintro ⟨operator, rest₁, opens, rest₂, target, rest, names, ho, hparenthesis, hread, ⟨names₁, hedge, hnode⟩, rfl⟩
    refine bind_eq_ok_iff.2 ⟨_, ho, bind_eq_ok_iff.2 ⟨names₁, addEdgeOf_eq_ok_iff.2 hedge, ?_⟩⟩
    simp only [hparenthesis]
    exact bind_eq_ok_iff.2 ⟨_, takePlace_eq_ok_iff.2 ⟨hread, hnode⟩, rfl⟩

/-- Reading a relation is a move. -/
theorem takeRelation_makes_move {mode : Mode} (h : d.takeRelation i mode text = .ok (.reading d' rest)) :
    ∃ m, d.Takes m ∧ d.Makes d' (fun i d => d.takeRelation i mode) text rest m := by
  obtain ⟨operator, rest₁, opens, rest₂, target, rest, names, ho, hparenthesis, hread, hnames, e⟩ := takeRelation_eq_ok_iff.1 h
  cases e
  refine ⟨.relation mode operator target names opens, ⟨⟨i, text, rest₁, ho⟩, ⟨i, rest₂, rest, hread⟩, hnames⟩,
    extends_register_under hnames, .relation .., ?_⟩
  rintro i' more e e' hs hsame hallows hmove
  cases hmove
  have hne : Text.trimStart rest₁ ≠ [] := by
    intro hnil
    rw [hnil] at hparenthesis
    cases hparenthesis
    obtain ⟨rest₃, hd, -⟩ := hread
    cases hd
  refine takeRelation_eq_ok_iff.2
    ⟨operator, _, opens, rest₂ ++ more, target, _, names, local_takeOperator hs ho, ?_, readsPlace_append hs hread, ?_, rfl⟩
  · rw [takeParenthesis_append hne, hparenthesis]
  · -- If names may not come in where the move is made again, none come in with the edge or the target.
    rw [hsame]
    refine register_under_eq_ok hnames ?_
    rw [← hsame]
    exact hallows.2

/-- A reader that does what another does, on any stack and whatever follows, makes the moves of that one. -/
theorem Draft.Makes.congr {read read' : Input → Draft → List Char → Except CompileError Progress} {m : Move}
    (h : d.Makes d' read text rest m) (hread : ∀ i e more, read' i e (cs ++ more) = read i e (text ++ more)) :
    d.Makes d' read' cs rest m := by
  obtain ⟨hallows, hmove, hreplay⟩ := h
  refine ⟨hallows, hmove, fun hs hnames hallows hmove => ?_⟩
  rw [hread]
  exact hreplay hs hnames hallows hmove

/-- The mode that marks ask for, if they do not ask for two. -/
def mode? (marks : List Char) : Option Mode :=
  if marks.contains '!' && marks.contains '?' then none
  else some (if marks.contains '!' then .negated else if marks.contains '?' then .optional else .plain)

/-- Behind the marks of a mode a bracket opens, or a relation stands. -/
theorem takeItem_eq_of_mode {mode : Mode} {c : Char} {inner : List Char} (hmode : mode? (text.takeWhile isModeChar) = some mode)
    (hrest : text.dropWhile isModeChar = c :: inner) :
    d.takeItem i text =
      if c = '[' then .ok (.reading { d with frames := .group mode d.items [] :: d.frames, items := [] } inner)
      else d.takeRelation i mode (c :: inner) := by
  unfold mode? at hmode
  unfold Draft.takeItem
  split at hmode
  · cases hmode
  rename_i hmarks
  cases hmode
  simp only [hrest, if_neg hmarks]
  split
  · rename_i e
    cases e
    rfl
  · rename_i hc
    have hne : c ≠ '[' := fun e => hc inner (e ▸ rfl)
    exact (if_neg hne).symm

/-- An item that is read has a mode, and something stands behind its marks. -/
theorem exists_mode_of_takeItem (h : d.takeItem i text = .ok (.reading d' rest)) :
    ∃ mode c inner, mode? (text.takeWhile isModeChar) = some mode ∧ text.dropWhile isModeChar = c :: inner := by
  unfold Draft.takeItem at h
  simp only at h
  split at h
  · cases h
  rename_i hmarks
  cases hrest : text.dropWhile isModeChar with
  | nil =>
    rw [hrest] at h
    cases h
  | cons c inner => exact ⟨_, c, inner, if_neg hmarks, rfl⟩

/-- Reading an item is a move. -/
theorem takeItem_makes_move (h : d.takeItem i text = .ok (.reading d' rest)) :
    ∃ m, d.Takes m ∧ d.Makes d' (fun i d => d.takeItem i) text rest m := by
  obtain ⟨mode, c, inner, hmode, hrest⟩ := exists_mode_of_takeItem h
  have hne : text.dropWhile isModeChar ≠ [] := by
    rw [hrest]
    exact List.cons_ne_nil _ _
  -- The same marks stand before the same text, on any stack.
  have hmode' : ∀ more, mode? ((text ++ more).takeWhile isModeChar) = some mode := by
    intro more
    rw [takeWhile_append_of_ne_nil hne, hmode]
  have hrest' : ∀ more, (text ++ more).dropWhile isModeChar = c :: (inner ++ more) := by
    intro more
    rw [dropWhile_append_of_ne_nil hne, hrest, List.cons_append]
  rw [takeItem_eq_of_mode hmode hrest] at h
  split at h
  · rename_i hc
    cases h
    refine ⟨.openBracket mode, trivial, trivial, .openBracket mode, fun {i more e e'} _ _ _ hmove => ?_⟩
    cases hmove
    exact (takeItem_eq_of_mode (hmode' more) (hrest' more)).trans (if_pos hc)
  · rename_i hc
    obtain ⟨m, htakes, hmakes⟩ := takeRelation_makes_move h
    exact ⟨m, htakes, hmakes.congr fun _ _ more => (takeItem_eq_of_mode (hmode' more) (hrest' more)).trans (if_neg hc)⟩

/-- Closing what is innermost is a move. -/
theorem close_makes_move {c : Char} (hframes : d.frames ≠ []) (h : d.close i (c :: text) = .ok (.reading d' rest)) :
    ∃ m, d.Takes m ∧ d.Makes d' (fun i d => d.close i) (c :: text) rest m := by
  unfold Draft.close at h
  split at h
  · rename_i mode outer branches frames hd
    split at h
    · cases h
    rename_i branch hbranch
    split at h
    · rename_i after e
      cases e
      cases h
      refine ⟨.bar, trivial, trivial, .bar hd hbranch, fun {i more e e'} _ _ _ hmove => ?_⟩
      cases hmove with
      | bar he hbranch' => simp only [Draft.close, he, hbranch', List.cons_append]
    · rename_i after e
      cases e
      cases h
      refine ⟨.closeBracket, trivial, trivial, .closeBracket hd hbranch, fun {i more e e'} _ _ _ hmove => ?_⟩
      cases hmove with
      | closeBracket he hbranch' => simp only [Draft.close, he, hbranch', List.cons_append]
    · cases h
  · rename_i mode operator target outer frames hd
    split at h
    · rename_i after e
      cases e
      cases h
      refine ⟨.closeTarget, trivial, trivial, .closeTarget hd, fun {i more e e'} _ _ _ hmove => ?_⟩
      cases hmove with
      | closeTarget he => simp only [Draft.close, he, List.cons_append]
    · cases h
  · rename_i hd
    exact absurd hd hframes

/-- Nothing is read on from the end of the text. -/
theorem close_nil_ne_reading : d.close i [] ≠ .ok (.reading d' rest) := by
  intro h
  unfold Draft.close at h
  split at h
  · split at h <;> cases h
  · cases h
  · simp only at h
    split at h <;> cases h

/-- A mark between constraints is passed, if a constraint follows. -/
theorem step_eq_of_and {b : Char} {inner : List Char} (ht : Text.trimStart cs = '&' :: text)
    (hb : Text.trimStart text = b :: inner) :
    d.step i cs = if isEndMark b then .error (i.fault (b :: inner) .relationMissing) else .ok (.reading d (b :: inner)) := by
  unfold Draft.step
  rw [ht]
  simp only [hb]

/-- Anything else ends something, or is an item. -/
theorem step_eq_of_ne {c : Char} (ht : Text.trimStart cs = c :: text) (hc : c ≠ '&') :
    d.step i cs = if isEndMark c then d.close i (c :: text) else d.takeItem i (c :: text) := by
  unfold Draft.step
  rw [ht]
  split
  · rename_i e
    cases e
  · rename_i e
    exact absurd (List.cons.inj e).1 hc
  · rename_i e
    cases e
    rfl

/-- Passing a mark between constraints is a move. -/
theorem pass_makes_move (ht : Text.trimStart cs = '&' :: text) (h : d.step i cs = .ok (.reading d' rest)) :
    ∃ m, d.Takes m ∧ d.Makes d' (fun i d => d.step i) cs rest m := by
  cases hb : Text.trimStart text with
  | nil =>
    unfold Draft.step at h
    simp only [ht, hb] at h
    cases h
  | cons b inner =>
    rw [step_eq_of_and ht hb] at h
    split at h
    · cases h
    rename_i hend
    cases h
    refine ⟨.pass, trivial, trivial, .pass, fun {i more e e'} _ _ _ hmove => ?_⟩
    cases hmove
    simp only [step_eq_of_and (trimStart_append ht more) (trimStart_append hb more), if_neg hend, List.cons_append]

/-- A step within a part makes a move. -/
theorem step_makes_move (h : d.step i cs = .ok (.reading d' rest)) (hin : ¬ d.AtEnd cs) :
    ∃ m, d.Takes m ∧ d.Makes d' (fun i d => d.step i) cs rest m := by
  cases ht : Text.trimStart cs with
  | nil =>
    unfold Draft.step at h
    rw [ht] at h
    exact absurd h close_nil_ne_reading
  | cons c text =>
    by_cases hand : c = '&'
    · subst hand
      exact pass_makes_move ht h
    · have happend := trimStart_append ht
      rw [step_eq_of_ne ht hand] at h
      split at h
      · rename_i hc
        have hframes : d.frames ≠ [] := fun hd => hin ⟨hd, by simpa [ht] using hc⟩
        obtain ⟨m, htakes, hmakes⟩ := close_makes_move hframes h
        exact ⟨m, htakes, hmakes.congr fun _ _ more => (step_eq_of_ne (happend more) hand).trans (if_pos hc)⟩
      · rename_i hc
        obtain ⟨m, htakes, hmakes⟩ := takeItem_makes_move h
        exact ⟨m, htakes, hmakes.congr fun _ _ more => (step_eq_of_ne (happend more) hand).trans (if_neg hc)⟩

end Treebank.Pattern

import Treebank.Proofs.Match.Storage
import Treebank.Proofs.Pattern.Flat
import Treebank.Proofs.Pattern.Operator

/-!
# Patterns read again

A pattern that was read, written, and read again is the same but for its plain groups: it has the same names, the same text and the
same matches (`ofText_text`). The writing of a constraint is read from any draft and with anything behind it that no word runs into;
this goes up the tree, from words to relations, brackets, parentheses and parts.
-/

namespace Treebank

namespace Pattern

variable {i : Input} {cs pre more : List Char} {d : Draft} {names names' : Names}

/-! ## Legible patterns -/

mutual
/-- Whether all values and labels in a constraint say in writing what they are. -/
def Constraint.legible : Constraint → Bool
  | .relation _ operator target none => operator.label.legible && target.description.legible
  | .relation _ operator target (some inner) => operator.label.legible && target.description.legible && inner.legible
  | .all _ children => allLegible children
  | .any _ children => allLegible children

/-- Whether all values and labels in constraints say in writing what they are. -/
def allLegible : List Constraint → Bool
  | [] => true
  | c :: cs => c.legible && allLegible cs
end

/-- Whether all values and labels in a part say in writing what they are. -/
def Part.legible (p : Part) : Bool := p.place.description.legible && p.constraint.all (·.legible)

theorem allLegible_iff {cs : List Constraint} : allLegible cs = true ↔ ∀ c ∈ cs, c.legible = true := by
  induction cs with
  | nil => simp [allLegible]
  | cons c cs ih => simp [allLegible, ih]

/-! ## Marks -/

namespace Draft

variable {mode : Mode} {outer branches : List Constraint} {frames : List Frame} {k : Constraint}

/-- A branch ends at a bar. -/
theorem run_bar (hframes : d.frames = .group mode outer branches :: frames) (hitems : conjunction? d.items = some k)
    (hpre : Text.trimStart pre = []) (more : List Char) :
    d.run i (pre ++ '|' :: more) = ({ d with frames := .group mode outer (k :: branches) :: frames, items := [] } : Draft).run i more := by
  refine run_of_step ((step_endMark hpre (by decide) more).trans ?_) (by simp; omega)
  unfold close
  rw [hframes, hitems]
  rfl

/-- A parenthesis is closed. -/
theorem run_closeTarget {operator : Operator} {target : Place} (hframes : d.frames = .target mode operator target outer :: frames)
    (more : List Char) :
    d.run i (')' :: more) =
      ({ d with frames := frames, items := .relation mode operator target (conjunction? d.items) :: outer } : Draft).run i more := by
  refine run_of_step ((step_eq_close rfl (by decide)).trans ?_) (by simp)
  unfold close
  rw [hframes]
  rfl

end Draft

/-! ## Relations -/

/-- A character that begins a relation, not something else. -/
structure BeginsRelation (c : Char) : Prop where
  blank : Text.isBlank c = false
  ampersand : c ≠ '&'
  endMark : isEndMark c = false
  modeChar : isModeChar c = false
  bracket : c ≠ '['

theorem beginsRelation_of_operator {c : Char} (h : Text.isAsciiDigit c = true ∨ isOperatorChar c = true ∨ c = '=') :
    BeginsRelation c := by
  rcases h with h | h | rfl
  · have hne : ∀ b : Char, Text.isAsciiDigit b = false → c ≠ b := by
      rintro b hb rfl
      rw [h] at hb
      cases hb
    refine ⟨Text.isBlank_of_isAsciiDigit h, hne '&' (by decide), ?_, ?_, hne '[' (by decide)⟩
    · simp [isEndMark, hne ')' (by decide), hne ']' (by decide), hne '|' (by decide), hne ':' (by decide)]
    · simp [isModeChar, hne '!' (by decide), hne '?' (by decide), Text.isBlank_of_isAsciiDigit h]
  · simp only [isOperatorChar, Bool.or_eq_true, decide_eq_true_eq] at h
    rcases h with ((((rfl | rfl) | rfl) | rfl) | rfl) | rfl <;>
      exact ⟨by decide, by decide, by decide, by decide, by decide⟩
  · exact ⟨by decide, by decide, by decide, by decide, by decide⟩

/-- A relation is read behind the mark of its mode. -/
theorem takeItem_mark (mode : Mode) {c : Char} (hc : BeginsRelation c) (text : List Char) :
    d.takeItem i (mode.mark.toList ++ c :: text) = d.takeRelation i mode (c :: text) := by
  have hmarks : mode.mark.toList.all isModeChar = true := by cases mode <;> decide
  have hmode : mode? mode.mark.toList = some mode := by cases mode <;> decide
  obtain ⟨htake, hdrop⟩ := run_append (List.all_eq_true.1 hmarks) (c :: text) (by rintro _ ⟨⟩; exact hc.modeChar)
  rw [takeItem_eq_of_mode (htake ▸ hmode) hdrop, if_neg hc.bracket]

/-- A step behind blanks reads a relation. -/
theorem step_mark (hpre : Text.trimStart pre = []) (mode : Mode) {c : Char} (hc : BeginsRelation c) (text : List Char) :
    d.step i (pre ++ (mode.mark.toList ++ c :: text)) = d.takeRelation i mode (c :: text) := by
  have hitem := takeItem_mark (d := d) (i := i) mode hc text
  have hbegin : ∀ {b : Char} {text : List Char}, Text.isBlank b = false → b ≠ '&' → isEndMark b = false →
      d.step i (pre ++ b :: text) = d.takeItem i (b :: text) := by
    intro b text hblank hand hend
    have hstart : Text.trimStart (pre ++ b :: text) = b :: text := by
      rw [trimStart_append_of_blank hpre]
      exact List.dropWhile_cons_of_neg (by simp [hblank])
    rw [step_eq_of_ne hstart hand, if_neg (by simp [hend])]
  cases mode with
  | plain => exact (hbegin hc.blank hc.ampersand hc.endMark).trans hitem
  | negated => exact (hbegin (b := '!') (by decide) (by decide) (by decide)).trans hitem
  | optional => exact (hbegin (b := '?') (by decide) (by decide) (by decide)).trans hitem

variable {mode : Mode} {operator : Operator} {target : Place}

/-- The parenthesis in front of a target, if there is one. -/
def opening (opens : Bool) : List Char := if opens then ['('] else []

/-- A relation that was read is read again, up to its target. -/
theorem takeRelation_text (ho : operator.IsRead) (hol : operator.label.legible = true) (ht : target.IsRead)
    (htl : target.description.legible = true) (opens : Bool) (hmore : Breaks more)
    (hnames : d.names.register (under (d.frames.any Frame.isNegated) (under (mode == .negated) (operator.mentions ++ target.mentions))) =
      .ok names') :
    d.takeRelation i mode (operator.text.toList ++ ' ' :: (opening opens ++ (target.text.toList ++ more))) =
      .ok (.reading (d.relate mode operator target names' opens) more) := by
  rw [under_under, Bool.or_comm] at hnames
  refine takeRelation_eq_ok_iff.2
    ⟨operator, _, opens, _, target, more, names', takeOperator_text ho hol _, ?_, readsPlace_text ht htl hmore, hnames, rfl⟩
  cases opens with
  | true => rfl
  | false =>
    obtain ⟨c, text, htext, rfl | rfl⟩ := target.text_eq_cons
    · rw [htext]
      rfl
    · rw [htext]
      rfl

/-- A run over a relation, up to its target. -/
theorem run_relation (hpre : Text.trimStart pre = []) (ho : operator.IsRead) (hol : operator.label.legible = true) (ht : target.IsRead)
    (htl : target.description.legible = true) (opens : Bool) (hmore : Breaks more)
    (hnames : d.names.register (under (d.frames.any Frame.isNegated) (under (mode == .negated) (operator.mentions ++ target.mentions))) =
      .ok names') :
    d.run i (pre ++ (mode.mark.toList ++ (operator.text.toList ++ ' ' :: (opening opens ++ (target.text.toList ++ more))))) =
      (d.relate mode operator target names' opens).run i more := by
  have hread := takeRelation_text (i := i) ho hol ht htl opens hmore hnames
  obtain ⟨c, text, htext, hc⟩ := operator.text_eq_cons
  rw [htext, List.cons_append] at hread ⊢
  refine Draft.run_of_step ((step_mark hpre mode (beginsRelation_of_operator hc) _).trans hread) ?_
  simp
  omega

/-! ## Constraints -/

/-- A constraint whose writing is read, from any draft and whatever follows, as the constraint without plain groups. -/
def Constraint.ReadsBack (c : Constraint) : Prop :=
  ∀ {i : Input} {d : Draft} {pre more : List Char} {names' : Names}, Text.trimStart pre = [] → Breaks more →
    d.names.register (under (d.frames.any Frame.isNegated) c.mentions) = .ok names' →
      d.run i (pre ++ (c.text.toList ++ more)) = ({ d with items := c.flat.reverse ++ d.items, names := names' } : Draft).run i more

theorem trimStart_nil : Text.trimStart [] = [] := rfl

theorem trimStart_space : Text.trimStart [' '] = [] := rfl

theorem breaks_space (text : List Char) : Breaks ([' '] ++ text) := breaks_cons (.inl rfl) text

/-- Constraints on one token, one after the other. -/
theorem run_texts {children : List Constraint} (hne : children ≠ []) (h : ∀ c ∈ children, c.ReadsBack) (hpre : Text.trimStart pre = [])
    (hmore : Breaks more) (hnames : d.names.register (under (d.frames.any Frame.isNegated) (mentioned children)) = .ok names') :
    d.run i (pre ++ ((" ".intercalate (texts children)).toList ++ more)) =
      ({ d with items := (flatAll children).reverse ++ d.items, names := names' } : Draft).run i more := by
  induction children generalizing d pre with
  | nil => exact absurd rfl hne
  | cons c cs ih =>
    obtain ⟨hc, h⟩ := List.forall_mem_cons.1 h
    rw [mentioned, under_append, register_append_eq_ok_iff] at hnames
    obtain ⟨names₁, hfirst, hlast⟩ := hnames
    cases cs with
    | nil =>
      cases hlast
      rw [texts, texts, String.intercalate_singleton, hc hpre hmore hfirst, flatAll, flatAll, List.append_nil]
    | cons c' cs =>
      have htext : (" ".intercalate (texts (c :: c' :: cs))).toList ++ more =
          c.text.toList ++ ([' '] ++ ((" ".intercalate (texts (c' :: cs))).toList ++ more)) := by
        simp only [texts, String.intercalate_cons_cons, String.toList_append, List.append_assoc]
        rfl
      rw [htext, hc hpre (breaks_space _) hfirst, ih (List.cons_ne_nil _ _) h trimStart_space hlast]
      simp only [flatAll, List.reverse_append, List.append_assoc]

/-- The branches of a bracket, from the beginning of one of them up to the closing bracket. -/
theorem run_branches {c : Constraint} {children outer branches : List Constraint} {frames : List Frame}
    (hread : ∀ b ∈ c :: children, b.IsRead) (h : ∀ b ∈ c :: children, b.ReadsBack)
    (hframes : d.frames = .group mode outer branches :: frames) (hitems : d.items = []) (hpre : Text.trimStart pre = [])
    (hnames : d.names.register (under (d.frames.any Frame.isNegated) (mentioned (c :: children))) = .ok names') (more : List Char) :
    d.run i (pre ++ ((" | ".intercalate (texts (c :: children))).toList ++ ']' :: more)) =
      ({ d with
          frames := frames, items := bracket mode (branches.reverse ++ flatEach (c :: children)) :: outer, names := names' } : Draft).run
        i more := by
  induction children generalizing d pre c branches with
  | nil =>
    have hc := flat_ne_nil (hread c (List.mem_cons_self ..))
    rw [mentioned, mentioned, List.append_nil] at hnames
    rw [texts, texts, String.intercalate_singleton, h c (List.mem_cons_self ..) hpre (breaks_cons (.inr (.inr rfl)) _) hnames, hitems,
      List.append_nil]
    have hk := conjunction?_reverse hc
    have hclose := Draft.run_closeBracket (i := i) (d := { d with items := c.flat.reverse, names := names' }) hframes hk trimStart_nil
      more
    simpa [flatEach] using hclose
  | cons c' cs ih =>
    obtain ⟨hcread, hread⟩ := List.forall_mem_cons.1 hread
    obtain ⟨hc, h⟩ := List.forall_mem_cons.1 h
    rw [mentioned, under_append, register_append_eq_ok_iff] at hnames
    obtain ⟨names₁, hfirst, hlast⟩ := hnames
    have htext : (" | ".intercalate (texts (c :: c' :: cs))).toList ++ ']' :: more =
        c.text.toList ++ ([' '] ++ '|' :: ([' '] ++ ((" | ".intercalate (texts (c' :: cs))).toList ++ ']' :: more))) := by
      simp only [texts, String.intercalate_cons_cons, String.toList_append, List.append_assoc]
      rfl
    have hk := conjunction?_reverse (flat_ne_nil hcread)
    have hbar := Draft.run_bar (i := i) (d := { d with items := c.flat.reverse, names := names₁ }) hframes hk trimStart_space
      ([' '] ++ ((" | ".intercalate (texts (c' :: cs))).toList ++ ']' :: more))
    rw [htext, hc hpre (breaks_space _) hfirst, hitems, List.append_nil, hbar]
    have hrest := ih (d := { d with
        frames := .group mode outer (whole c.flat :: branches) :: frames, items := [], names := names₁ }) hread h rfl rfl trimStart_space
      (by rw [hframes] at hlast; exact hlast)
    rw [hrest]
    simp [flatEach]

/-- A relation with nothing on its target. -/
theorem readsBack_relation (mode : Mode) (ho : operator.IsRead) (ht : target.IsRead) (hl : operator.label.legible = true)
    (htl : target.description.legible = true) : (Constraint.relation mode operator target none).ReadsBack := by
  intro i d pre more names' hpre hmore hnames
  rw [Constraint.mentions] at hnames
  have htext : (Constraint.relation mode operator target none).text.toList ++ more =
      mode.mark.toList ++ (operator.text.toList ++ ' ' :: (opening false ++ (target.text.toList ++ more))) := by
    simp [Constraint.text, opening]
  rw [htext, run_relation hpre ho hl ht htl false hmore hnames]
  rfl

/-- A relation with a constraint on its target, in parentheses. -/
theorem readsBack_target (mode : Mode) (ho : operator.IsRead) (ht : target.IsRead) (hl : operator.label.legible = true)
    (htl : target.description.legible = true) {inner : Constraint} (hinner : inner.ReadsBack) :
    (Constraint.relation mode operator target (some inner)).ReadsBack := by
  intro i d pre more names' hpre hmore hnames
  rw [Constraint.mentions, under_append, under_append, register_append_eq_ok_iff] at hnames
  obtain ⟨names₁, hfirst, hlast⟩ := hnames
  have htext : (Constraint.relation mode operator target (some inner)).text.toList ++ more =
      mode.mark.toList ++ (operator.text.toList ++ ' ' :: (opening true ++ (target.text.toList ++
        ([' '] ++ (inner.text.toList ++ ')' :: more))))) := by
    simp [Constraint.text, opening]
  -- Within the parenthesis a negation spans what it spans around it, or the mark of the relation is one.
  have hinside : names₁.register (under ((d.relate mode operator target names₁ true).frames.any Frame.isNegated) inner.mentions) =
      .ok names' := by
    rw [under_under, Bool.or_comm] at hlast
    exact hlast
  rw [htext, run_relation hpre ho hl ht htl true (breaks_space _) hfirst,
    hinner trimStart_space (breaks_cons (.inr (.inl rfl)) _) hinside]
  refine (Draft.run_closeTarget rfl more).trans ?_
  simp [Draft.relate, Constraint.flat]

/-- A bracket with constraints in it. -/
theorem run_bracket_texts {children : List Constraint} (hne : children ≠ []) (hgroup : ∀ m cs, children ≠ [.all m cs])
    (hread : ∀ c ∈ children, c.IsRead) (h : ∀ c ∈ children, c.ReadsBack) (hpre : Text.trimStart pre = [])
    (hnames : d.names.register (under (d.frames.any Frame.isNegated) (Constraint.all mode children).mentions) = .ok names')
    (more : List Char) :
    d.run i (pre ++ (mode.mark.toList ++ '[' :: ((" ".intercalate (texts children)).toList ++ ']' :: more))) =
      ({ d with items := .all mode (flatAll children) :: d.items, names := names' } : Draft).run i more := by
  rw [Constraint.mentions, under_under, Bool.or_comm] at hnames
  have hbody : (d.opened mode).run i ([] ++ ((" ".intercalate (texts children)).toList ++ ']' :: more)) = _ :=
    run_texts hne h rfl (breaks_cons (.inr (.inr rfl)) more) hnames
  have hk := conjunction?_reverse (flatAll_ne_nil hne hread)
  rw [← List.append_nil (flatAll children).reverse] at hk
  rw [Draft.run_open hpre]
  refine hbody.trans ((Draft.run_closeBracket rfl hk trimStart_nil more).trans ?_)
  rw [List.reverse_singleton, bracket_whole mode (flatAll_ne_group hgroup hread)]
  rfl

/-- A bracket with alternatives in it. -/
theorem readsBack_any (mode : Mode) {children : List Constraint} (hmany : 2 ≤ children.length) (hread : ∀ c ∈ children, c.IsRead)
    (h : ∀ c ∈ children, c.ReadsBack) : (Constraint.any mode children).ReadsBack := by
  intro i d pre more names' hpre hmore hnames
  match children, hmany, hread, h with
  | c :: c' :: cs, _, hread, h =>
    rw [Constraint.mentions, under_under, Bool.or_comm] at hnames
    have hbody : (d.opened mode).run i ([] ++ ((" | ".intercalate (texts (c :: c' :: cs))).toList ++ ']' :: more)) = _ :=
      run_branches hread h rfl rfl rfl hnames more
    have htext : (Constraint.any mode (c :: c' :: cs)).text.toList ++ more =
        mode.mark.toList ++ '[' :: ((" | ".intercalate (texts (c :: c' :: cs))).toList ++ ']' :: more) := by
      simp [Constraint.text]
    rw [htext, Draft.run_open hpre]
    refine hbody.trans ?_
    simp [Constraint.flat, flatEach, bracket, Draft.opened]

/-- A constraint that was read is read again. -/
theorem readsBack_of_isRead {c : Constraint} (h : c.IsRead) (hl : c.legible = true) : c.ReadsBack := by
  induction h with
  | relation mode ho ht =>
    simp only [Constraint.legible, Bool.and_eq_true] at hl
    exact readsBack_relation mode ho ht hl.1 hl.2
  | target mode ho ht hinner ih =>
    simp only [Constraint.legible, Bool.and_eq_true] at hl
    exact readsBack_target mode ho ht hl.1.1 hl.1.2 (ih hl.2)
  | all mode hne hgroup hread ih =>
    rename_i children
    have h : ∀ c ∈ children, c.ReadsBack := fun c hc => ih c hc (allLegible_iff.1 hl c hc)
    intro i d pre more names' hpre hmore hnames
    have hmarked : ∀ {mode : Mode}, mode ≠ .plain →
        (Constraint.all mode children).text.toList ++ more =
          mode.mark.toList ++ '[' :: ((" ".intercalate (texts children)).toList ++ ']' :: more) := by
      intro mode hmode
      cases mode with
      | plain => exact absurd rfl hmode
      | negated => simp [Constraint.text]
      | optional => simp [Constraint.text]
    cases mode with
    | plain =>
      have htext : (Constraint.all .plain children).text = " ".intercalate (texts children) := by simp [Constraint.text]
      have hplain : (Constraint.all .plain children).mentions = mentioned children := under_false
      rw [hplain] at hnames
      rw [htext]
      exact run_texts hne h hpre hmore hnames
    | negated =>
      rw [hmarked (by decide)]
      exact run_bracket_texts hne hgroup hread h hpre hnames more
    | optional =>
      rw [hmarked (by decide)]
      exact run_bracket_texts hne hgroup hread h hpre hnames more
  | any mode hmany hread ih => exact readsBack_any mode hmany hread fun c hc => ih c hc (allLegible_iff.1 hl c hc)

/-! ## Parts -/

/-- What stands behind the place of a part in writing. -/
def Part.constraintText (p : Part) : List Char := ((p.constraint.map fun c => " " ++ c.text).getD "").toList

/-- Further parts in writing, each behind a colon. -/
def furtherText : List Part → List Char
  | [] => []
  | p :: ps => [' '] ++ ':' :: ([' '] ++ (p.place.text.toList ++ (p.constraintText ++ furtherText ps)))

theorem toList_parts (p : Part) (ps : List Part) :
    (" : ".intercalate ((p :: ps).map Part.text)).toList = p.place.text.toList ++ (p.constraintText ++ furtherText ps) := by
  induction ps generalizing p with
  | nil =>
    rw [List.map_singleton, String.intercalate_singleton, Part.text, String.toList_append, Part.constraintText, furtherText,
      List.append_nil]
  | cons q ps ih =>
    rw [List.map_cons, List.map_cons, String.intercalate_cons_cons, ← List.map_cons, String.toList_append, ih, Part.text,
      String.toList_append, String.toList_append, furtherText, List.append_assoc, List.append_assoc]
    rfl

theorem breaks_furtherText (ps : List Part) : Breaks (furtherText ps) := by
  cases ps with
  | nil => exact breaks_nil
  | cons p ps => exact breaks_space _

theorem breaks_constraintText (p : Part) (hmore : Breaks more) : Breaks (p.constraintText ++ more) := by
  unfold Part.constraintText
  cases p.constraint with
  | none => simpa using hmore
  | some c =>
    rw [Option.map_some, Option.getD_some, String.toList_append, List.append_assoc]
    exact breaks_space _

/-- Without plain groups a part has the constraint that its members are as one. -/
theorem Part.flat_eq (p : Part) : p.flat = ⟨p.place, conjunction? (flatAll p.constraint.toList).reverse⟩ := by
  obtain ⟨place, constraint⟩ := p
  cases constraint with
  | none => rfl
  | some c => simp [Part.flat, flatAll]

/-- A draft at the beginning of a part that is not in parentheses. -/
def begun (before : List Part) (place : Place) (names : Names) : Draft := ⟨before, place, false, [], [], names⟩

/-- A part that is written begins with its place. -/
theorem beginPart_text {place : Place} (h : place.IsRead) (hl : place.description.legible = true) (hpre : Text.trimStart pre = [])
    (hmore : Breaks more) (hnames : names.register place.mentions = .ok names') (before : List Part) :
    beginPart i before names (pre ++ (place.text.toList ++ more)) = .ok (.reading (begun before place names') more) := by
  have hread : takePlace i names false (place.text.toList ++ more) = .ok ((place, names'), more) :=
    takePlace_eq_ok_iff.2 ⟨readsPlace_text h hl hmore, under_false.symm ▸ hnames⟩
  obtain ⟨c, text, htext, hc⟩ := place.text_eq_cons
  have hparenthesis : takeParenthesis (Text.trimStart (c :: (text ++ more))) = (false, c :: (text ++ more)) := by
    rcases hc with rfl | rfl <;> rfl
  unfold beginPart
  rw [trimStart_append_of_blank hpre]
  rw [htext, List.cons_append] at hread ⊢
  simp only [hparenthesis, hread]
  rfl

/-- The constraint of a part, up to the end of the part. -/
theorem run_constraint {p : Part} (h : p.IsRead) (hl : p.legible = true) (hmore : Breaks more)
    (hnames : names.register (mentioned p.constraint.toList) = .ok names') (before : List Part) :
    (begun before p.place names).run i (p.constraintText ++ more) =
      ({ begun before p.place names' with items := (flatAll p.constraint.toList).reverse } : Draft).run i more := by
  obtain ⟨place, constraint⟩ := p
  cases constraint with
  | none =>
    cases hnames
    rfl
  | some c =>
    have hread : ∀ b ∈ [c], b.ReadsBack := by
      intro b hb
      rw [List.mem_singleton.1 hb]
      refine readsBack_of_isRead (h.2 c rfl) ?_
      simp only [Part.legible, Bool.and_eq_true] at hl
      exact hl.2
    have htext : (Part.constraintText ⟨place, some c⟩) ++ more = [' '] ++ ((" ".intercalate (texts [c])).toList ++ more) := by
      simp [Part.constraintText, texts]
    have hplain : under false (mentioned [c]) = mentioned [c] := under_false
    rw [Option.toList_some, ← hplain] at hnames
    have hrun := run_texts (i := i) (d := begun before place names) (List.cons_ne_nil c []) hread trimStart_space hmore hnames
    rw [htext, hrun]
    simp [begun]

/-- Behind a colon another part begins. -/
theorem step_colon (hframes : d.frames = []) (henclosed : d.enclosed = false) (hpre : Text.trimStart pre = []) (text : List Char) :
    d.step i (pre ++ ':' :: text) = beginPart i d.done d.names text := by
  rw [Draft.step_endMark hpre (by decide)]
  unfold Draft.close
  rw [hframes, henclosed]
  rfl

/-- From the place of a part a pattern is read to its end. -/
theorem run_parts {p : Part} {ps : List Part} (h : ∀ q ∈ p :: ps, q.IsRead) (hl : ∀ q ∈ p :: ps, q.legible = true)
    (hnames : names.register (mentioned p.constraint.toList ++ ps.flatMap Part.mentions) = .ok names') (before : List Part) :
    (begun before p.place names).run i (p.constraintText ++ furtherText ps) = .ok (before.reverse ++ (p :: ps).map Part.flat, names') := by
  induction ps generalizing p before names with
  | nil =>
    obtain ⟨hp, -⟩ := List.forall_mem_cons.1 h
    obtain ⟨hpl, -⟩ := List.forall_mem_cons.1 hl
    rw [List.flatMap_nil, List.append_nil] at hnames
    rw [run_constraint hp hpl (breaks_furtherText []) hnames, Draft.run_blank rfl rfl rfl]
    simp [Draft.done, begun, Part.flat_eq]
  | cons q ps ih =>
    obtain ⟨hp, h⟩ := List.forall_mem_cons.1 h
    obtain ⟨hpl, hl⟩ := List.forall_mem_cons.1 hl
    obtain ⟨hq, -⟩ := List.forall_mem_cons.1 h
    obtain ⟨hql, -⟩ := List.forall_mem_cons.1 hl
    rw [register_append_eq_ok_iff] at hnames
    obtain ⟨names₁, hconstraint, hrest⟩ := hnames
    rw [List.flatMap_cons, Part.mentions, List.append_assoc, register_append_eq_ok_iff] at hrest
    obtain ⟨names₂, hplace, hrest⟩ := hrest
    simp only [Part.legible, Bool.and_eq_true] at hql
    rw [run_constraint hp hpl (breaks_furtherText _) hconstraint, furtherText]
    -- Behind the colon the next part begins with its place.
    have hbegin := beginPart_text (i := i) hq.1 hql.1 trimStart_space (breaks_constraintText q (breaks_furtherText ps)) hplace
      (p.flat :: before)
    rw [p.flat_eq] at hbegin
    have hcolon := step_colon (i := i) (d := { begun before p.place names₁ with items := (flatAll p.constraint.toList).reverse }) rfl rfl
      trimStart_space ([' '] ++ (q.place.text.toList ++ (q.constraintText ++ furtherText ps)))
    rw [Draft.run_of_step (hcolon.trans hbegin) (by simp; omega), ih h hl hrest]
    simp [p.flat_eq]

end Pattern

open Pattern

/-- Whether all values and labels in a pattern say in writing what they are: no literal value of an attribute begins with a slash or is
the sign for any value, and no regular expression holds a slash. -/
def Pattern.legible (p : Pattern) : Bool := p.parts.all Part.legible

namespace Pattern

variable {o : PatternOptions} {t : String} {p : Pattern}

/-- A pattern that was read, written, and read again is the pattern without plain groups. -/
theorem ofText_text_eq_flat (h : ofText o t = .ok p) (hl : p.legible = true) : ofText o p.text = .ok p.flat := by
  obtain ⟨names, hnames, hp⟩ := register_of_ofText h
  have hread := isRead_of_ofText h
  have hlegible : ∀ q ∈ p.parts, q.legible = true := List.all_eq_true.1 hl
  obtain ⟨first, parts, hparts⟩ := List.exists_cons_of_ne_nil (parts_ne_nil_of_ofText h)
  rw [hparts] at hread hlegible hnames
  have htext : p.text.toList = first.place.text.toList ++ (first.constraintText ++ furtherText parts) := by
    rw [Pattern.text, hparts, toList_parts]
  rw [List.flatMap_cons, Part.mentions, List.append_assoc, register_append_eq_ok_iff] at hnames
  obtain ⟨names₁, hplace, hrest⟩ := hnames
  have hfirst := hlegible first (List.mem_cons_self ..)
  simp only [Part.legible, Bool.and_eq_true] at hfirst
  have hbegin : beginPart (Input.of p.text) [] {} ([] ++ (first.place.text.toList ++ (first.constraintText ++ furtherText parts))) = _ :=
    beginPart_text (hread first (List.mem_cons_self ..)).1 hfirst.1 rfl (breaks_constraintText first (breaks_furtherText parts)) hplace []
  have hblank : Text.isAllBlank p.text.toList = false := by
    obtain ⟨c, text, hcons, hc⟩ := first.place.text_eq_cons
    rw [htext, hcons, List.cons_append, Text.isAllBlank, List.all_cons]
    rcases hc with rfl | rfl <;> rfl
  rw [List.nil_append, ← htext] at hbegin
  refine ofText_eq_ok_iff.2 ⟨hblank, read_eq_ok_iff.2 ⟨_, _, _, _, hbegin, run_parts hread hlegible hrest [], ?_⟩⟩
  rw [hp, hparts]
  rfl

/-- Without plain groups a pattern is searched with the same outcome. -/
theorem search_flat (h : ∀ part ∈ p.parts, part.IsRead) (g : Graph) (initial : List (String × Int)) (overrides : Matcher.Overrides) :
    Matcher.search p.flat g initial overrides = Matcher.search p g initial overrides := by
  unfold Matcher.search Matcher.ofPattern
  have hrefusal : Matcher.refusal? p.flat g = Matcher.refusal? p g := rfl
  rw [hrefusal]
  cases initial.findSome? (Matcher.refusal? p g) with
  | some refusal => rfl
  | none => exact congrArg Except.ok (Matcher.all_flat h _ initial)

/-- The writing of a pattern that was read is read with the same options, if all values and labels say in writing what they are: the
names of tokens and of edges are the same in the same order, the writing is the same again, and every search in every graph has the
same outcome. -/
theorem ofText_text (h : ofText o t = .ok p) (hl : p.legible = true) :
    ∃ q, ofText o p.text = .ok q ∧ q.nodeNames = p.nodeNames ∧ q.edgeNames = p.edgeNames ∧ q.options = p.options ∧
      q.text = p.text ∧ ∀ g initial overrides, Matcher.search q g initial overrides = Matcher.search p g initial overrides := by
  have hread := isRead_of_ofText h
  exact ⟨p.flat, ofText_text_eq_flat h hl, rfl, rfl, rfl, text_flat_eq hread, search_flat hread⟩

/-- So it is for a pattern with a part and a target in parentheses, a bracket of alternatives, one of them optional, a plain bracket,
bounds, a label with a subtype, a regular expression and names. -/
theorem ofText_text_nested :
    let t := "(\x7btag: N | V; $\x7d=a >nsubj:pass=e (\x7b\x7d=b 2>> \x7b\x7d) ![ > \x7b\x7d=b | ?[ < \x7b\x7d & >/y/ \x7b\x7d ] ] " ++
      "[ . \x7b\x7d ] ) : \x7b\x7d=a"
    let written := "\x7b$;tag:N;tag:V\x7d=a >nsubj:pass=e (\x7b\x7d=b 2,2>> \x7b\x7d) ![> \x7b\x7d=b | ?[< \x7b\x7d >/y/ \x7b\x7d]] " ++
      ". \x7b\x7d : \x7b\x7d=a"
    ∃ p : Pattern, ofText {} t = .ok p ∧ p.legible = true ∧ p.text = written ∧
      ∃ q, ofText {} p.text = .ok q ∧ q.nodeNames = p.nodeNames ∧ q.edgeNames = p.edgeNames ∧ q.options = p.options ∧
        q.text = p.text ∧ ∀ g initial overrides, Matcher.search q g initial overrides = Matcher.search p g initial overrides := by
  intro t written
  obtain ⟨p, hp, hsame⟩ := exists_ok_of_map_toOption (x := ofText {} t) (g := fun p => (p.legible, p.text)) (b := (true, written))
    (by decide +kernel)
  obtain ⟨hl, htext⟩ := Prod.mk.inj hsame
  exact ⟨p, hp, hl, htext, ofText_text hp hl⟩

end Pattern

end Treebank

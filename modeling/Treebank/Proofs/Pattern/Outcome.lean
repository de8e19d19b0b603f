import Treebank.Proofs.Pattern.Bracket

/-!
# What reading makes

What every move keeps, and every beginning of a part, holds of what is read in the end (`ofText_induction`). So every constraint of a
pattern was put together as the brackets and parentheses say (`isRead_of_ofText`), and the names of the pattern are those that its
parts mention (`register_of_ofText`).
-/

namespace Treebank.Pattern

variable {i : Input} {cs : List Char} {d d' : Draft} {parts : List Part} {names : Names} {progress : Progress}

/-! ## Invariants of reading -/

/-- A draft at the beginning of a part, with the parts and the names before. -/
structure Draft.Begins (d : Draft) (before : List Part) (known : Names) : Prop where
  parts : d.parts = before
  frames : d.frames = []
  items : d.items = []
  place : d.place.IsRead
  names : known.register d.place.mentions = .ok d.names

theorem begins_of_beginPart (h : beginPart i parts names cs = .ok progress) :
    ∃ d rest, progress = .reading d rest ∧ d.Begins parts names := by
  unfold beginPart at h
  simp only at h
  split at h
  · cases h
  · rename_i place names' rest htake
    cases h
    obtain ⟨hread, hnames⟩ := takePlace_eq_ok_iff.1 htake
    rw [under_false] at hnames
    exact ⟨_, rest, rfl, rfl, rfl, rfl, ⟨i, _, rest, hread⟩, hnames⟩

/-- Behind a part the pattern ends, or another part begins. -/
theorem begins_of_afterPart (h : afterPart i parts names cs = .ok progress) :
    progress = .finished parts.reverse names ∨ ∃ d rest, progress = .reading d rest ∧ d.Begins parts names := by
  unfold afterPart at h
  split at h
  · cases h
    exact .inl rfl
  · exact .inr (begins_of_beginPart h)
  · cases h

/-- A step makes a move, or ends a part, behind which the pattern ends or another part begins. -/
theorem step_cases (h : d.step i cs = .ok progress) :
    (∃ m d' rest, progress = .reading d' rest ∧ d.Moves m d' ∧ d.Takes m) ∨
      (d.frames = [] ∧ (progress = .finished d.done.reverse d.names ∨
        ∃ d' rest, progress = .reading d' rest ∧ d'.Begins d.done d.names)) := by
  by_cases hend : d.AtEnd cs
  · obtain ⟨after, hafter, -⟩ := Draft.step_atEnd hend h
    exact .inr ⟨hend.1, begins_of_afterPart hafter⟩
  · cases progress with
    | finished parts names => exact absurd (Draft.atEnd_of_finished h) hend
    | reading d' rest =>
      obtain ⟨m, htakes, -, hmove, -⟩ := step_makes_move h hend
      exact .inl ⟨m, d', rest, rfl, hmove, htakes⟩

variable {I : Draft → Prop} {F : List Part → Names → Prop}

/-- What every move keeps, and every beginning of a part, holds at the end of a run. -/
theorem run_induction (move : ∀ {d d' : Draft} {m : Move}, I d → d.Moves m d' → d.Takes m → I d')
    (next : ∀ {d d' : Draft}, I d → d.frames = [] → d'.Begins d.done d.names → I d')
    (finish : ∀ {d : Draft}, I d → d.frames = [] → F d.done.reverse d.names)
    (hd : I d) (h : d.run i cs = .ok (parts, names)) : F parts names := by
  induction d, cs using Draft.run.induct i with
  | case1 d cs e hstep =>
    rw [Draft.run, hstep] at h
    cases h
  | case2 d cs parts' names' hstep =>
    rw [Draft.run, hstep] at h
    cases h
    rcases step_cases hstep with ⟨m, d', rest, e, -⟩ | ⟨hframes, e | ⟨d', rest, e, -⟩⟩
    · cases e
    · cases e
      exact finish hd hframes
    · cases e
  | case3 d cs d' rest hstep hlt ih =>
    rw [Draft.run, hstep] at h
    simp only [if_pos hlt] at h
    refine ih ?_ h
    rcases step_cases hstep with ⟨m, d₁, rest₁, e, hmove, htakes⟩ | ⟨hframes, e | ⟨d₁, rest₁, e, hbegins⟩⟩
    · cases e
      exact move hd hmove htakes
    · cases e
    · cases e
      exact next hd hframes hbegins
  | case4 d cs d' rest hstep hlt =>
    rw [Draft.run, hstep] at h
    simp only [if_neg hlt] at h
    cases h

/-- What holds at the beginning of a pattern, and is kept, holds of the parts and the names in the end. -/
theorem ofText_induction {o : PatternOptions} {text : String} {p : Pattern} (begin : ∀ {d : Draft}, d.Begins [] {} → I d)
    (move : ∀ {d d' : Draft} {m : Move}, I d → d.Moves m d' → d.Takes m → I d')
    (next : ∀ {d d' : Draft}, I d → d.frames = [] → d'.Begins d.done d.names → I d')
    (finish : ∀ {d : Draft}, I d → d.frames = [] → F d.done.reverse d.names)
    (h : ofText o text = .ok p) :
    ∃ names, F p.parts names ∧ p = ⟨text, p.parts, Pairs.keys names.nodes, names.edges, o⟩ := by
  obtain ⟨d, rest, parts, names, hbegin, hrun, rfl⟩ := read_eq_ok_iff.1 (ofText_eq_ok_iff.1 h).2
  obtain ⟨d₁, rest₁, e, hbegins⟩ := begins_of_beginPart hbegin
  cases e
  exact ⟨names, run_induction move next finish (begin hbegins) hrun, rfl⟩

/-! ## How constraints are put together -/

/-- A constraint as reading puts it together: a group has members, but not a single one that is a group; alternatives are several. -/
inductive Constraint.IsRead : Constraint → Prop where
  | relation (mode : Mode) {operator : Operator} {target : Place} (ho : operator.IsRead) (ht : target.IsRead) :
      IsRead (.relation mode operator target none)
  | target (mode : Mode) {operator : Operator} {target : Place} {inner : Constraint} (ho : operator.IsRead)
      (ht : target.IsRead) (hinner : inner.IsRead) : IsRead (.relation mode operator target (some inner))
  | all (mode : Mode) {children : List Constraint} (hne : children ≠ []) (hgroup : ∀ m cs, children ≠ [.all m cs])
      (h : ∀ c ∈ children, c.IsRead) : IsRead (.all mode children)
  | any (mode : Mode) {children : List Constraint} (hmany : 2 ≤ children.length) (h : ∀ c ∈ children, c.IsRead) :
      IsRead (.any mode children)

/-- A part as reading puts it together. -/
def Part.IsRead (p : Part) : Prop := p.place.IsRead ∧ ∀ c ∈ p.constraint, c.IsRead

/-- Constraints on one token, as one. -/
theorem isRead_conjunction? {items : List Constraint} (h : ∀ c ∈ items, c.IsRead) : ∀ c ∈ conjunction? items, c.IsRead := by
  match items, h with
  | [], _ => simp [conjunction?]
  | [c], h => simpa [conjunction?] using h
  | c :: c' :: items, h =>
    rintro d ⟨⟩
    refine .all .plain (by simp) ?_ fun e he => h e (List.mem_reverse.1 he)
    intro m cs e
    have := congrArg List.length e
    simp at this

/-- The branches of a bracket, as one constraint. -/
theorem isRead_bracket (mode : Mode) {branches : List Constraint} (hne : branches ≠ []) (h : ∀ c ∈ branches, c.IsRead) :
    (bracket mode branches).IsRead := by
  unfold bracket
  split
  · cases h _ (List.mem_singleton_self _) with
    | all _ hne hgroup hcs => exact .all mode hne hgroup hcs
  · rename_i c hc
    refine .all mode (List.cons_ne_nil _ _) ?_ h
    rintro m cs e
    cases e
    exact hc m cs rfl
  · rename_i h₁ h₂
    refine .any mode ?_ h
    match branches, hne, h₂ with
    | [c], _, h₂ => exact absurd rfl (h₂ c)
    | c :: c' :: cs, _, _ => simp

/-- The constraints that wait in something open; what a parenthesis is about to become waits, too. -/
def Frame.waiting : Frame → List Constraint
  | group _ outer branches => outer ++ branches
  | target _ operator place outer => .relation .plain operator place none :: outer

/-- A draft whose constraints are put together as reading does. -/
structure Draft.Composed (d : Draft) : Prop where
  parts : ∀ p ∈ d.parts, p.IsRead
  place : d.place.IsRead
  frames : ∀ f ∈ d.frames, ∀ c ∈ f.waiting, c.IsRead
  items : ∀ c ∈ d.items, c.IsRead

/-- The constraint that a parenthesis becomes. -/
theorem isRead_relation {mode : Mode} {operator : Operator} {target : Place} {items : List Constraint} (ho : operator.IsRead)
    (ht : target.IsRead) (h : ∀ c ∈ items, c.IsRead) :
    (Constraint.relation mode operator target (conjunction? items)).IsRead := by
  cases hinner : conjunction? items with
  | none => exact .relation mode ho ht
  | some inner => exact .target mode ho ht (isRead_conjunction? h inner hinner)

theorem Draft.Composed.done (hd : d.Composed) : ∀ p ∈ d.done, p.IsRead := by
  intro p hp
  rcases List.mem_cons.1 hp with rfl | hp
  · exact ⟨hd.place, isRead_conjunction? hd.items⟩
  · exact hd.parts p hp

/-- Moves put constraints together. -/
theorem Draft.Composed.moves {m : Move} (hd : d.Composed) (hm : d.Moves m d') (htakes : d.Takes m) : d'.Composed := by
  cases hm with
  | pass => exact hd
  | openBracket mode =>
    refine ⟨hd.parts, hd.place, fun f hf c hc => ?_, by simp⟩
    rcases List.mem_cons.1 hf with rfl | hf
    · exact hd.items c (by simpa [Frame.waiting] using hc)
    · exact hd.frames f hf c hc
  | relation mode operator target names opens =>
    obtain ⟨ho, ht, -⟩ := htakes
    cases opens with
    | false =>
      refine ⟨hd.parts, hd.place, hd.frames, fun c hc => ?_⟩
      rcases List.mem_cons.1 hc with rfl | hc
      · exact .relation mode ho ht
      · exact hd.items c hc
    | true =>
      refine ⟨hd.parts, hd.place, fun f hf c hc => ?_, by simp [relate]⟩
      rcases List.mem_cons.1 hf with rfl | hf
      · rcases List.mem_cons.1 hc with rfl | hc
        · exact .relation .plain ho ht
        · exact hd.items c hc
      · exact hd.frames f hf c hc
  | bar hframes hbranch =>
    rename_i mode outer branches frames branch
    have hin := List.forall_mem_cons.1 (hframes ▸ hd.frames)
    refine ⟨hd.parts, hd.place, fun f hf c hc => ?_, by simp⟩
    rcases List.mem_cons.1 hf with rfl | hf
    · rcases List.mem_append.1 hc with hc | hc
      · exact hin.1 c (List.mem_append_left _ hc)
      rcases List.mem_cons.1 hc with rfl | hc
      · exact isRead_conjunction? hd.items _ hbranch
      · exact hin.1 c (List.mem_append_right _ hc)
    · exact hin.2 f hf c hc
  | closeBracket hframes hbranch =>
    rename_i mode outer branches frames branch
    have hin := List.forall_mem_cons.1 (hframes ▸ hd.frames)
    refine ⟨hd.parts, hd.place, hin.2, fun c hc => ?_⟩
    rcases List.mem_cons.1 hc with rfl | hc
    · refine isRead_bracket mode (by simp) fun c hc => ?_
      rcases List.mem_cons.1 (List.mem_reverse.1 hc) with rfl | hc
      · exact isRead_conjunction? hd.items _ hbranch
      · exact hin.1 c (List.mem_append_right _ hc)
    · exact hin.1 c (List.mem_append_left _ hc)
  | closeTarget hframes =>
    rename_i mode operator target outer frames
    have hin := List.forall_mem_cons.1 (hframes ▸ hd.frames)
    refine ⟨hd.parts, hd.place, hin.2, fun c hc => ?_⟩
    rcases List.mem_cons.1 hc with rfl | hc
    · cases hin.1 _ (List.mem_cons_self ..) with
      | relation _ ho ht => exact isRead_relation ho ht hd.items
    · exact hin.1 c (List.mem_cons_of_mem _ hc)

/-- In a pattern that was read all constraints are put together as reading does. -/
theorem isRead_of_ofText {o : PatternOptions} {text : String} {p : Pattern} (h : ofText o text = .ok p) :
    ∀ part ∈ p.parts, part.IsRead := by
  have hbegin : ∀ {d : Draft} {before : List Part} {known : Names}, (∀ p ∈ before, p.IsRead) → d.Begins before known →
      d.Composed := by
    intro d before known hbefore hd
    exact ⟨hd.parts ▸ hbefore, hd.place, by simp [hd.frames], by simp [hd.items]⟩
  have hfinish : ∀ {d : Draft}, d.Composed → d.frames = [] → ∀ p ∈ d.done.reverse, p.IsRead := by
    intro d hd _ p hp
    exact hd.done p (List.mem_reverse.1 hp)
  obtain ⟨names, hparts, -⟩ := ofText_induction (I := Draft.Composed) (F := fun parts _ => ∀ p ∈ parts, p.IsRead)
    (hbegin (by simp)) Draft.Composed.moves (fun hd _ => hbegin hd.done) hfinish h
  exact hparts

/-! ## The names of a pattern -/

/-- The names that are mentioned in something open, before what is within it. -/
def Frame.mentions : Frame → Mentions
  | group mode outer branches => mentioned outer.reverse ++ under (mode == .negated) (mentioned branches.reverse)
  | target mode operator place outer =>
    mentioned outer.reverse ++ under (mode == .negated) (operator.mentions ++ place.mentions)

/-- The names that are mentioned in what is open and then, innermost, in `inner`. -/
def openMentions : List Frame → Mentions → Mentions
  | [], inner => inner
  | f :: frames, inner => openMentions frames (f.mentions ++ under f.isNegated inner)

/-- The names that a draft mentions. -/
def Draft.mentions (d : Draft) : Mentions :=
  d.parts.reverse.flatMap Part.mentions ++ (d.place.mentions ++ openMentions d.frames (mentioned d.items.reverse))

theorem openMentions_append (frames : List Frame) (ms ms' : Mentions) :
    openMentions frames (ms ++ ms') = openMentions frames ms ++ under (frames.any Frame.isNegated) ms' := by
  induction frames generalizing ms ms' with
  | nil => simp [openMentions]
  | cons f frames ih =>
    rw [openMentions, openMentions, under_append, ← List.append_assoc, ih, under_under, List.any_cons, Bool.or_comm]

theorem mentioned_conjunction? (items : List Constraint) : mentioned (conjunction? items).toList = mentioned items.reverse := by
  unfold conjunction?
  split
  · rfl
  · rfl
  · change mentioned [.all .plain items.reverse] = _
    rw [mentioned, mentioned, List.append_nil, Constraint.mentions]
    exact under_false

/-- Constraints on one token mention as one what they mention one after the other. -/
theorem mentions_of_conjunction? {items : List Constraint} {c : Constraint} (h : conjunction? items = some c) :
    c.mentions = mentioned items.reverse := by
  have hitems := mentioned_conjunction? items
  rwa [h, Option.toList_some, mentioned, mentioned, List.append_nil] at hitems

/-- The names that a relation mentions, with those of what is on its target. -/
theorem mentions_relation (mode : Mode) (operator : Operator) (target : Place) (inner : Option Constraint) :
    (Constraint.relation mode operator target inner).mentions =
      under (mode == .negated) (operator.mentions ++ target.mentions ++ mentioned inner.toList) := by
  cases inner with
  | none => simp [Constraint.mentions, mentioned]
  | some inner => simp [Constraint.mentions, mentioned]

/-- A bracket mentions what its branches mention, but the mark of a single group within it gets lost. -/
theorem milder_bracket (mode : Mode) (branches : List Constraint) :
    Milder (bracket mode branches).mentions (under (mode == .negated) (mentioned branches)) := by
  unfold bracket
  split
  · rename_i m children
    rw [Constraint.mentions, mentioned, mentioned, List.append_nil, Constraint.mentions, under_under]
    refine (milder_refl _).under fun hu => ?_
    simp [hu]
  · exact milder_refl _
  · exact milder_refl _

/-- A draft whose names are those that it mentions. -/
def Draft.Registered (d : Draft) : Prop := ({} : Names).register d.mentions = .ok d.names

/-- Where nothing is open a draft mentions what its parts mention. -/
theorem mentions_done (hframes : d.frames = []) : d.done.reverse.flatMap Part.mentions = d.mentions := by
  simp [Draft.done, Draft.mentions, Part.mentions, hframes, openMentions, mentioned_conjunction?]

/-- What is mentioned in what is open stays, or gets milder. -/
theorem Draft.Registered.of_milder (hd : d.Registered) (hparts : d'.parts = d.parts) (hplace : d'.place = d.place)
    (hnames : d'.names = d.names)
    (hms : Milder (openMentions d'.frames (mentioned d'.items.reverse)) (openMentions d.frames (mentioned d.items.reverse))) :
    d'.Registered := by
  unfold Registered mentions at hd ⊢
  rw [hparts, hplace, hnames]
  exact register_of_milder ((hms.append_left _).append_left _) hd

/-- A move adds the names that it mentions. -/
theorem Draft.Registered.moves {m : Move} (hd : d.Registered) (hm : d.Moves m d') (htakes : d.Takes m) : d'.Registered := by
  have hsame : ∀ {ms ms' : Mentions}, ms = ms' → Milder ms ms' := fun e => e ▸ milder_refl _
  cases hm with
  | pass => exact hd
  | openBracket mode =>
    refine hd.of_milder rfl rfl rfl (hsame ?_)
    simp [openMentions, Frame.mentions, mentioned]
  | relation mode operator target names opens =>
    obtain ⟨-, -, hnames⟩ := htakes
    rw [Bool.or_comm, ← under_under] at hnames
    -- With a parenthesis or without, the names of the operator and of the target come last.
    have hlast : (d.relate mode operator target names opens).mentions =
        d.mentions ++ under (d.frames.any Frame.isNegated) (under (mode == .negated) (operator.mentions ++ target.mentions)) := by
      cases opens with
      | false =>
        simp only [relate, Bool.false_eq_true, if_false, mentions, List.reverse_cons, mentioned_append, openMentions_append,
          mentioned, Constraint.mentions, List.append_nil, List.append_assoc]
      | true =>
        simp only [relate, if_true, mentions, List.reverse_nil, mentioned, openMentions, Frame.mentions, openMentions_append,
          under_nil, List.append_nil, List.append_assoc]
    unfold Registered
    rw [hlast, names_relate, register_append_eq_ok_iff]
    exact ⟨_, hd, hnames⟩
  | bar hframes hbranch =>
    refine hd.of_milder rfl rfl rfl (hsame ?_)
    rw [hframes]
    simp only [openMentions, Frame.mentions, List.reverse_cons, List.reverse_nil, mentioned_append, mentions_of_conjunction? hbranch,
      mentioned, under_nil, under_append, Frame.isNegated, List.append_nil, List.append_assoc]
  | closeBracket hframes hbranch =>
    rename_i mode outer branches frames branch
    refine hd.of_milder rfl rfl rfl ?_
    have hbelow : openMentions d.frames (mentioned d.items.reverse) =
        openMentions frames (mentioned outer.reverse) ++
          under (frames.any Frame.isNegated) (under (mode == .negated) (mentioned (branch :: branches).reverse)) := by
      rw [hframes, openMentions, ← openMentions_append]
      simp only [Frame.mentions, Frame.isNegated, List.reverse_cons, mentioned_append, mentioned, mentions_of_conjunction? hbranch,
        under_append, List.append_nil, List.append_assoc]
    rw [hbelow]
    simp only [List.reverse_cons (a := bracket ..), mentioned_append, openMentions_append]
    refine Milder.append_left (Milder.under ?_ id) _
    simpa [mentioned] using milder_bracket mode (branch :: branches).reverse
  | closeTarget hframes =>
    refine hd.of_milder rfl rfl rfl (hsame ?_)
    rw [hframes]
    simp only [openMentions, Frame.mentions, Frame.isNegated, List.reverse_cons, mentioned_append, mentioned, List.append_nil,
      mentions_relation, mentioned_conjunction?, under_append, List.append_assoc]

/-- The names of a pattern that was read are those that its parts mention. -/
theorem register_of_ofText {o : PatternOptions} {text : String} {p : Pattern} (h : ofText o text = .ok p) :
    ∃ names, ({} : Names).register (p.parts.flatMap Part.mentions) = .ok names ∧
      p = ⟨text, p.parts, Pairs.keys names.nodes, names.edges, o⟩ := by
  have hbegin : ∀ {d : Draft} {before : List Part} {known : Names},
      ({} : Names).register (before.reverse.flatMap Part.mentions) = .ok known → d.Begins before known → d.Registered := by
    intro d before known hbefore hd
    unfold Draft.Registered Draft.mentions
    rw [hd.parts, hd.frames, hd.items, register_append_eq_ok_iff]
    exact ⟨known, hbefore, by simpa [openMentions, mentioned] using hd.names⟩
  have hfinish : ∀ {d : Draft}, d.Registered → d.frames = [] →
      ({} : Names).register (d.done.reverse.flatMap Part.mentions) = .ok d.names := by
    intro d hd hframes
    rw [mentions_done hframes]
    exact hd
  exact ofText_induction (I := Draft.Registered) (F := fun parts names => ({} : Names).register (parts.flatMap Part.mentions) = .ok names)
    (hbegin rfl) Draft.Registered.moves (fun hd hframes => hbegin (hfinish hd hframes)) hfinish h

end Treebank.Pattern

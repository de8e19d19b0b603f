import Treebank.Proofs.Pattern.Run
import Mathlib.Data.List.DropRight

/-!
# Brackets around constraints

The constraints of a node expression, read as they stand and read within one more pair of brackets.
-/

namespace Treebank.Pattern

variable {cs pre rest text : List Char} {i i' : Input} {parts : List Part} {names : Names}

/-- Blanks before a text do not count. -/
theorem trimStart_append_of_blank (h : Text.trimStart cs = []) (more : List Char) :
    Text.trimStart (cs ++ more) = Text.trimStart more := by
  unfold Text.trimStart at h ⊢
  rw [List.dropWhile_append, if_pos (by simp [h])]

/-! ## Between parts -/

/-- A part begins alike whatever follows. -/
theorem beginPart_append {progress : Progress} (h : beginPart i parts names cs = .ok progress) :
    ∃ d rest, progress = .reading d rest ∧ d.parts = parts ∧ d.frames = [] ∧
      ∀ {i' : Input} {more : List Char}, Stops more → beginPart i' parts names (cs ++ more) = .ok (.reading d (rest ++ more)) := by
  unfold beginPart at h
  simp only at h
  have hne : Text.trimStart cs ≠ [] := by
    intro hnil
    rw [hnil] at h
    cases h
  split at h
  · cases h
  rename_i place names' rest htake
  cases h
  refine ⟨_, rest, rfl, rfl, rfl, fun {i' more} hs => ?_⟩
  unfold beginPart
  simp only [takeParenthesis_append hne]
  rw [takePlace_append hs htake fun hu => by cases hu]

/-- What comes after a part: nothing, or another part. -/
theorem afterPart_cases {progress : Progress} (h : afterPart i parts names cs = .ok progress) :
    (Text.trimStart cs = [] ∧ progress = .finished parts.reverse names) ∨
      ∃ text d rest, Text.trimStart cs = ':' :: text ∧ progress = .reading d rest ∧ d.parts = parts := by
  unfold afterPart at h
  split at h
  · rename_i ht
    cases h
    exact .inl ⟨ht, rfl⟩
  · rename_i text ht
    obtain ⟨d, rest, hprogress, hparts, -⟩ := beginPart_append h
    exact .inr ⟨text, d, rest, ht, hprogress, hparts⟩
  · cases h

namespace Draft

variable {d d' e : Draft}

/-- The parts with the present one, the last first. -/
def done (d : Draft) : List Part := ⟨d.place, conjunction? d.items⟩ :: d.parts

/-- At a mark that ends constraints a step closes what is innermost. -/
theorem step_eq_close {c : Char} (ht : Text.trimStart cs = c :: text) (hc : isEndMark c = true) :
    d.step i cs = d.close i (c :: text) := by
  have hand : c ≠ '&' := by
    rintro rfl
    cases hc
  rw [step_eq_of_ne ht hand, if_pos hc]

/-- At a mark that ends constraints, behind blanks, what is innermost is closed. -/
theorem step_endMark (hpre : Text.trimStart pre = []) {c : Char} (hc : isEndMark c = true) (text : List Char) :
    d.step i (pre ++ c :: text) = d.close i (c :: text) := by
  have hblank : Text.isBlank c = false := by
    simp only [isEndMark, Bool.or_eq_true, decide_eq_true_eq] at hc
    rcases hc with ((rfl | rfl) | rfl) | rfl <;> decide
  refine step_eq_close ((trimStart_append_of_blank hpre _).trans ?_) hc
  exact List.dropWhile_cons_of_neg (by simp [hblank])

/-- What a step does at the end of a part: it passes the parenthesis around the part, if there is one, and goes on behind. -/
theorem step_atEnd {progress : Progress} (hend : d.AtEnd cs) (h : d.step i cs = .ok progress) :
    ∃ after, afterPart i d.done d.names after = .ok progress ∧
      ((d.enclosed = false ∧ after = Text.trimStart cs) ∨ (d.enclosed = true ∧ Text.trimStart cs = ')' :: after)) := by
  obtain ⟨hframes, hhead⟩ := hend
  have hclose : d.step i cs = d.close i (Text.trimStart cs) := by
    cases ht : Text.trimStart cs with
    | nil =>
      unfold step
      rw [ht]
    | cons c text =>
      rw [ht] at hhead
      exact step_eq_close ht (hhead c rfl)
  rw [hclose] at h
  unfold close at h
  rw [hframes] at h
  simp only at h
  split at h
  · rename_i henclosed
    split at h
    · rename_i after ht
      exact ⟨after, h, .inr ⟨henclosed, ht⟩⟩
    · cases h
  · rename_i henclosed
    exact ⟨_, h, .inl ⟨by simpa using henclosed, rfl⟩⟩

/-- At the end of the last part. -/
theorem run_blank (hframes : d.frames = []) (henclosed : d.enclosed = false) (hblank : Text.trimStart cs = []) :
    d.run i cs = .ok (d.done.reverse, d.names) := by
  have hstep : d.step i cs = .ok (.finished d.done.reverse d.names) := by
    unfold step close afterPart
    rw [hblank, hframes, henclosed]
    rfl
  rw [run, hstep]

/-- A run ends with one part more at least. -/
theorem length_lt_of_run (h : d.run i cs = .ok (parts, names)) : d.parts.length < parts.length := by
  induction d, cs using run.induct i with
  | case1 d cs e he =>
    rw [run, he] at h
    cases h
  | case2 d cs parts' names' hf =>
    rw [run, hf] at h
    cases h
    obtain ⟨after, hafter, -⟩ := step_atEnd (atEnd_of_finished hf) hf
    rcases afterPart_cases hafter with ⟨-, e⟩ | ⟨text, d₁, rest, -, e, -⟩
    · cases e
      simp [done]
    · cases e
  | case3 d cs d₁ cs₁ hstep hlt ih =>
    rw [run, hstep] at h
    have hlength := ih (by simpa only [if_pos hlt] using h)
    by_cases hend : d.AtEnd cs
    · obtain ⟨after, hafter, -⟩ := step_atEnd hend hstep
      rcases afterPart_cases hafter with ⟨-, e⟩ | ⟨text, d₂, rest, -, e, hparts⟩
      · cases e
      · cases e
        rw [hparts] at hlength
        simp only [done, List.length_cons] at hlength
        omega
    · obtain ⟨m, -, -, hmove, -⟩ := step_makes_move hstep hend
      rwa [hmove.part.1] at hlength
  | case4 d cs d₁ cs₁ hstep hlt =>
    rw [run, hstep] at h
    simp only [if_neg hlt] at h
    cases h

/-- A run that ends with one part comes to its end, or to the parenthesis there. -/
theorem passes_of_run_single {part : Part} (h : d.run i cs = .ok ([part], names)) (hparts : d.parts = []) :
    ∃ d' rest, Passes i d cs d' rest ∧ d'.frames = [] ∧ part = ⟨d'.place, conjunction? d'.items⟩ ∧ names = d'.names ∧
      ((d'.enclosed = false ∧ Text.trimStart rest = []) ∨
        (d'.enclosed = true ∧ ∃ after, Text.trimStart rest = ')' :: after ∧ Text.trimStart after = [])) := by
  obtain ⟨d', rest, hpasses, hend, hlast⟩ := passes_of_run h
  have hparts' : d'.parts = [] := hpasses.part.1.trans hparts
  rw [run] at hlast
  split at hlast
  · cases hlast
  · rename_i parts' names' hstep
    obtain ⟨after, hafter, hplace⟩ := step_atEnd hend hstep
    rcases afterPart_cases hafter with ⟨hblank, e⟩ | ⟨text, d₁, rest₁, -, e, -⟩
    · cases e
      rw [done, hparts', List.reverse_singleton] at hlast
      cases hlast
      refine ⟨d', rest, hpasses, hend.1, rfl, rfl, ?_⟩
      rcases hplace with ⟨henclosed, rfl⟩ | ⟨henclosed, ht⟩
      · refine .inl ⟨henclosed, ?_⟩
        unfold Text.trimStart at hblank ⊢
        rwa [List.dropWhile_idempotent] at hblank
      · exact .inr ⟨henclosed, after, ht, hblank⟩
    · cases e
  · rename_i d₁ rest₁ hstep
    obtain ⟨after, hafter, -⟩ := step_atEnd hend hstep
    rcases afterPart_cases hafter with ⟨-, e⟩ | ⟨text, d₂, rest₂, -, e, hparts₂⟩
    · cases e
    · -- Another part begins, so there are two in the end.
      cases e
      split at hlast
      · have := length_lt_of_run hlast
        rw [hparts₂, done, hparts'] at this
        simp at this
      · cases hlast

/-- Behind the parenthesis around a part no bracket is opened. -/
theorem run_fails_of_enclosed {r : List Part × Names} {after : List Char} (hframes : d.frames = []) (henclosed : d.enclosed = true)
    (ht : Text.trimStart rest = ')' :: after) (hblank : Text.trimStart after = []) (text : List Char) :
    d.run i (rest ++ ' ' :: '[' :: text) ≠ .ok r := by
  have hopen : Text.trimStart (' ' :: '[' :: text) = '[' :: text := rfl
  have hstep : d.step i (rest ++ ' ' :: '[' :: text) = .error (i.fault ('[' :: text) (.unexpected '[')) := by
    refine (step_eq_close (trimStart_append ht _) (by decide)).trans ?_
    unfold close
    rw [hframes]
    simp only [henclosed, if_true, afterPart, trimStart_append_of_blank hblank, hopen]
    rfl
  rw [run, hstep]
  intro h
  cases h

/-! ## Into a bracket and out of it -/

/-- A draft in which a bracket has just been opened. -/
def opened (d : Draft) (mode : Mode) : Draft := { d with frames := .group mode d.items [] :: d.frames, items := [] }

/-- A bracket is opened behind blanks and the mark of its mode. -/
theorem run_open (hpre : Text.trimStart pre = []) (mode : Mode) (text : List Char) :
    d.run i (pre ++ (mode.mark.toList ++ '[' :: text)) = (d.opened mode).run i text := by
  have hstep : d.step i (pre ++ (mode.mark.toList ++ '[' :: text)) = .ok (.reading (d.opened mode) text) := by
    unfold step
    rw [trimStart_append_of_blank hpre]
    cases mode <;> rfl
  exact run_of_step hstep (by simp; omega)

/-- A bracket is opened behind a node expression and a space. -/
theorem run_open_space (hpre : Text.trimStart pre = []) (mode : Mode) (text : List Char) :
    d.run i (pre ++ ' ' :: (mode.mark.toList ++ '[' :: text)) = (d.opened mode).run i text := by
  rw [List.append_cons]
  exact run_open ((trimStart_append_of_blank hpre _).trans rfl) mode text

/-- A bracket is closed. -/
theorem run_closeBracket {mode : Mode} {outer branches : List Constraint} {frames : List Frame} {k : Constraint}
    (hframes : d.frames = .group mode outer branches :: frames) (hitems : conjunction? d.items = some k)
    (hpre : Text.trimStart pre = []) (more : List Char) :
    d.run i (pre ++ ']' :: more) =
      ({ d with frames := frames, items := bracket mode (k :: branches).reverse :: outer } : Draft).run i more := by
  refine run_of_step ((step_endMark hpre (by decide) more).trans ?_) (by simp; omega)
  unfold close
  rw [hframes, hitems]
  rfl

/-- A bracket is closed at the end of the pattern. -/
theorem run_close {mode : Mode} {outer : List Constraint} {k : Constraint} (hframes : e.frames = [.group mode outer []])
    (henclosed : e.enclosed = false) (hblank : Text.trimStart rest = []) (hk : conjunction? e.items = some k) :
    e.run i (rest ++ [']']) = .ok ((⟨e.place, conjunction? (bracket mode [k] :: outer)⟩ :: e.parts).reverse, e.names) := by
  rw [run_closeBracket hframes hk hblank]
  exact run_blank rfl henclosed rfl

/-- The ground within the bracket instead of that before it. -/
theorem regrounded_opened (hframes : d.frames = []) (mode : Mode) :
    Regrounded d.items [.group mode d.items []] d (d.opened mode) := by
  refine ⟨rfl, rfl, rfl, rfl, ?_⟩
  simp only [opened, hframes]
  exact .ground []

/-- What is read from the draft `d`, at the top of the last part, up to the end of the text: the constraints `added`, which are `k` as
one. After that the draft is `d'`. -/
structure Reads (i : Input) (d d' : Draft) (cs : List Char) (added : List Constraint) (k : Constraint) : Prop where
  top : d.frames = []
  bare : d.enclosed = false
  passes : ∃ rest, Passes i d cs d' rest ∧ Text.trimStart rest = []
  bottom : d'.frames = []
  items : d'.items = added ++ d.items
  whole : conjunction? added = some k

variable {added : List Constraint} {k : Constraint}

/-- Constraints that can be read can be read within a bracket, unless it is negated and they bring in names. -/
theorem Reads.run_opened (h : Reads i d d' cs added k) (mode : Mode)
    (hnames : mode = .negated → d'.names.size = d.names.size) (i' : Input) :
    (d.opened mode).run i' (cs ++ [']']) =
      .ok ((⟨d.place, conjunction? (bracket mode [k] :: d.items)⟩ :: d.parts).reverse, d'.names) := by
  obtain ⟨hframes, henclosed, ⟨rest, hpasses, hblank⟩, hframes', hitems, hk⟩ := h
  have hneg : [Frame.group mode d.items []].any Frame.isNegated = true → d'.names.size = d.names.size := fun hu =>
    hnames (by cases mode <;> first | rfl | cases hu)
  obtain ⟨e, he, hinner⟩ := hpasses.regrounded (stops_bracket []) (regrounded_opened hframes mode) hneg i'
  have hground := he.stack
  rw [hframes', hitems] at hground
  obtain ⟨hsame, hbelow⟩ := hground.of_nil
  obtain ⟨hparts, hplace, hbare⟩ := hinner.part
  rw [List.append_cancel_right hsame] at hk
  rw [hinner.run_eq, run_close hbelow (hbare.trans henclosed) hblank hk, hparts, hplace, he.names]
  rfl

/-- A step looks at what is behind the blanks. -/
theorem step_congr {cs' : List Char} (h : Text.trimStart cs' = Text.trimStart cs) : d.step i cs' = d.step i cs := by
  unfold step
  rw [h]

/-- At the end of a branch of a bracket there is something in it, and no part ends. -/
theorem branch_of_run {mode : Mode} {outer : List Constraint} {r : List Part × Names} {c : Char}
    (hframes : e.frames = [.group mode outer []]) (ht : Text.trimStart cs = c :: text) (hc : isEndMark c = true)
    (h : e.run i cs = .ok r) : (∃ k, conjunction? e.items = some k) ∧ c ≠ ':' := by
  rw [run, step_eq_close ht hc] at h
  unfold close at h
  rw [hframes] at h
  cases hk : conjunction? e.items with
  | none =>
    rw [hk] at h
    cases h
  | some k =>
    refine ⟨⟨k, rfl⟩, ?_⟩
    rintro rfl
    rw [hk] at h
    cases h

/-- A run that comes to an end takes a step. -/
theorem exists_step_of_run {r : List Part × Names} (h : d.run i cs = .ok r) : ∃ progress, d.step i cs = .ok progress := by
  rw [run] at h
  split at h
  · cases h
  · exact ⟨_, by assumption⟩
  · exact ⟨_, by assumption⟩

/-- Behind a part that no parenthesis is around, a run goes on with another part. -/
theorem eq_colon_of_run {r : List Part × Names} {c : Char} (hend : d.AtEnd cs) (henclosed : d.enclosed = false)
    (ht : Text.trimStart cs = c :: text) (h : d.run i cs = .ok r) : c = ':' := by
  obtain ⟨progress, hstep⟩ := exists_step_of_run h
  obtain ⟨after, hafter, hplace⟩ := step_atEnd hend hstep
  rcases hplace with ⟨-, rfl⟩ | ⟨henclosed', -⟩
  · have htrim : Text.trimStart (Text.trimStart cs) = c :: text := by
      rw [Text.trimStart, Text.trimStart, List.dropWhile_idempotent]
      exact ht
    rcases afterPart_cases hafter with ⟨hblank, -⟩ | ⟨text', d₁, rest₁, hcolon, -⟩
    · rw [htrim] at hblank
      cases hblank
    · rw [htrim] at hcolon
      exact (List.cons.inj hcolon).1
  · rw [henclosed] at henclosed'
    cases henclosed'

/-- A chain of steps from a text is one from the text with other blanks before it, if a bracket can be read around this one. -/
theorem Passes.of_trimStart_eq {cs' : List Char} {r' : List Part × Names} (h : Passes i d cs' d' rest)
    (hcs : Text.trimStart cs' = Text.trimStart cs) (hframes : d.frames = [])
    (h' : (d.opened .plain).run i' (cs ++ [']']) = .ok r') :
    ∃ rest', Passes i d cs d' rest' ∧ Text.trimStart rest' = Text.trimStart rest := by
  cases h with
  | done => exact ⟨cs, .done d cs, hcs.symm⟩
  | step hstep hin hlt hpasses =>
    rename_i d₁ cs₁
    rw [step_congr hcs] at hstep
    have hin : ¬ d.AtEnd cs := by rwa [AtEnd, ← hcs]
    refine ⟨rest, .step hstep hin ?_ hpasses, rfl⟩
    -- The first step takes up some of the text, since it does so within the bracket.
    have hopened := regrounded_opened hframes .plain
    obtain ⟨m, -, hallows, hmove, hreplay⟩ := step_makes_move hstep hin
    obtain ⟨e₁, hmove', -⟩ := hopened.moves hmove
    have hinner : (d.opened .plain).step i' (cs ++ [']']) = .ok (.reading e₁ (cs₁ ++ [']'])) :=
      hreplay (stops_bracket []) hopened.names (hopened.allows hmove hallows fun hu => by cases hu) hmove'
    rw [run, hinner] at h'
    by_contra hlt'
    have hlong : ¬ (cs₁ ++ [']']).length < (cs ++ [']']).length := by simpa using hlt'
    simp only [if_neg hlong] at h'
    cases h'

/-- Constraints that are read as they stand, and within a bracket. -/
theorem reads_of_run_opened {cs' : List Char} {r r' : List Part × Names} (hframes : d.frames = [])
    (henclosed : d.enclosed = false) (h : d.run i cs' = .ok r) (hcs : Text.trimStart cs' = Text.trimStart cs)
    (h' : (d.opened .plain).run i' (cs ++ [']']) = .ok r') :
    ∃ d' added k, Reads i d d' cs added k ∧ r = (d'.done.reverse, d'.names) := by
  obtain ⟨d', rest, hpasses, hend, hlast⟩ := passes_of_run h
  obtain ⟨rest', hpasses', hrest⟩ := hpasses.of_trimStart_eq hcs hframes h'
  obtain ⟨e, he, hinner⟩ := hpasses'.regrounded (stops_bracket []) (regrounded_opened hframes .plain) (fun hu => by cases hu) i'
  rw [hinner.run_eq] at h'
  have hground := he.stack
  rw [hend.1] at hground
  obtain ⟨hitems, hbelow⟩ := hground.of_nil
  have hbare : d'.enclosed = false := hpasses'.part.2.2.trans henclosed
  cases ht : Text.trimStart rest with
  | nil =>
    rw [ht] at hrest
    rw [run_blank hend.1 hbare ht] at hlast
    cases hlast
    obtain ⟨⟨k, hk⟩, -⟩ := branch_of_run hbelow (trimStart_append_of_blank hrest [']']) (by decide) h'
    exact ⟨d', e.items, k, ⟨hframes, henclosed, ⟨rest', hpasses', hrest⟩, hend.1, hitems, hk⟩, rfl⟩
  | cons c text =>
    -- Another part begins, which cannot be within a bracket.
    exfalso
    rw [ht] at hrest
    obtain rfl := eq_colon_of_run hend hbare ht hlast
    exact (branch_of_run hbelow (trimStart_append hrest [']']) (by decide) h').2 rfl

end Draft

/-! ## Whole patterns -/

variable {o : PatternOptions} {p q pn : Pattern}

/-- A pattern is compiled exactly if it is not blank and can be read. -/
theorem ofText_eq_ok_iff {text : String} :
    ofText o text = .ok p ↔ Text.isAllBlank text.toList = false ∧ read o text = .ok p := by
  unfold ofText compile
  cases hb : Text.isAllBlank text.toList with
  | true =>
    simp only [if_true, Bool.true_eq_false, false_and, iff_false]
    intro h
    cases h
  | false =>
    simp only [Bool.false_eq_true, if_false, true_and]
    cases hr : read o text with
    | error e =>
      simp only [reduceCtorEq, iff_false]
      cases e.fault.isLimit <;> intro h <;> cases h
    | ok q =>
      rw [Except.ok.injEq]
      constructor
      · intro h
        cases h
        rfl
      · rintro rfl
        rfl

/-- A pattern is read from its first part on. -/
theorem read_eq_ok_iff {text : String} :
    read o text = .ok p ↔ ∃ d rest parts names, beginPart (Input.of text) [] {} text.toList = .ok (.reading d rest) ∧
      d.run (Input.of text) rest = .ok (parts, names) ∧
        p = { source := text, parts := parts, nodeNames := Pairs.keys names.nodes, edgeNames := names.edges, options := o } := by
  unfold read
  rw [bind_eq_ok_iff]
  constructor
  · rintro ⟨progress, hbegin, h⟩
    obtain ⟨d, rest, rfl, -⟩ := beginPart_append hbegin
    obtain ⟨⟨parts, names⟩, hrun, h⟩ := bind_eq_ok_iff.1 h
    cases h
    exact ⟨d, rest, parts, names, hbegin, hrun, rfl⟩
  · rintro ⟨d, rest, parts, names, hbegin, hrun, rfl⟩
    exact ⟨_, hbegin, bind_eq_ok_iff.2 ⟨_, hrun, rfl⟩⟩

/-- A pattern that was read has a part. -/
theorem parts_ne_nil_of_ofText {text : String} (h : ofText o text = .ok p) : p.parts ≠ [] := by
  obtain ⟨d, rest, parts, names, -, hrun, rfl⟩ := read_eq_ok_iff.1 (ofText_eq_ok_iff.1 h).2
  have := Draft.length_lt_of_run hrun
  exact List.ne_nil_of_length_pos (Nat.lt_of_le_of_lt (Nat.zero_le _) this)

/-- The negated constraints of a node expression bring in no name. -/
theorem Draft.Reads.size_eq {d d' : Draft} {added : List Constraint} {k : Constraint} (h : Draft.Reads i d d' cs added k)
    (hneg : ∀ c ∈ added, c.mode = .negated) : d'.names.size = d.names.size := by
  obtain ⟨hframes, -, ⟨rest, hpasses, -⟩, hframes', hitems, -⟩ := h
  have hground : Draft.Regrounded d.items [] d { d with items := [] } := by
    refine ⟨rfl, rfl, rfl, rfl, ?_⟩
    rw [hframes]
    exact .ground []
  obtain ⟨e, he, hinner⟩ := hpasses.regrounded stops_nil hground (fun hu => by cases hu) i
  have hstack := he.stack
  rw [hframes', hitems] at hstack
  obtain ⟨hsame, hnone⟩ := hstack.of_nil
  rw [List.append_cancel_right hsame] at hneg
  have hsize := hinner.bottomModes.2
  rw [hnone, he.names] at hsize
  exact hsize fun mode hmode => by
    obtain ⟨c, hc, rfl⟩ := List.mem_map.1 hmode
    exact hneg c hc

/-- A node expression with text behind it is read as the node expression, and from its end on as the text. -/
theorem ofText_behind_eq_ok_iff {n text : String} {d₀ d : Draft} {rest₀ more : List Char} (hblank : Text.isAllBlank n.toList = false)
    (hbegin : beginPart (Input.of n) [] {} n.toList = .ok (.reading d₀ rest₀))
    (hpasses : Draft.Passes (Input.of n) d₀ rest₀ d rest) (htext : text.toList = n.toList ++ ' ' :: more) :
    ofText o text = .ok p ↔ ∃ parts names, d.run (Input.of text) (rest ++ ' ' :: more) = .ok (parts, names) ∧
      p = { source := text, parts := parts, nodeNames := Pairs.keys names.nodes, edgeNames := names.edges, options := o } := by
  have hblank' : Text.isAllBlank text.toList = false := by
    rw [Text.isAllBlank] at hblank ⊢
    rw [htext, List.all_append, hblank, Bool.false_and]
  obtain ⟨d, rest, hprogress, -, -, happend⟩ := beginPart_append hbegin
  cases hprogress
  have hbegin' : beginPart (Input.of text) [] {} (n.toList ++ ' ' :: more) = .ok (.reading d₀ (rest₀ ++ ' ' :: more)) :=
    happend (stops_space more)
  have hrun := (hpasses.append (stops_space more) (Input.of text)).run_eq
  rw [ofText_eq_ok_iff, read_eq_ok_iff, and_iff_right hblank', htext]
  constructor
  · rintro ⟨d', rest', parts, names, hfirst, hlast, rfl⟩
    rw [hbegin'] at hfirst
    cases hfirst
    exact ⟨parts, names, hrun ▸ hlast, rfl⟩
  · rintro ⟨parts, names, hlast, rfl⟩
    exact ⟨_, _, parts, names, hbegin', hrun ▸ hlast, rfl⟩

/-- How a node expression `n`, constraints behind it in `p`, and those in a bracket in `q` are read: `place` has the constraints
`items` in all of them, and then those that are `k` as one. -/
structure Bracketing (n p q : Pattern) (place : Place) (items added : List Constraint) (k : Constraint) : Prop where
  whole : conjunction? added = some k
  node : n.parts = [⟨place, conjunction? items⟩]
  behind : p.parts = [⟨place, conjunction? (added ++ items)⟩]
  within : q.parts = [⟨place, conjunction? (bracket .plain [k] :: items)⟩]

/-- Constraints behind a node expression that are compiled in a bracket, too, are the same constraints there. They bring in no name if
they are negated; if they bring in none, they are compiled in a negated bracket. -/
theorem bracketing_of_ofText {n c : String} (hn : ofText o n = .ok pn) (hone : pn.parts.length = 1)
    (hp : ofText o (n ++ " " ++ c) = .ok p) (hq : ofText o (n ++ " [" ++ c ++ "]") = .ok q) :
    ∃ place items added k, Bracketing pn p q place items added k ∧
      ((∀ c ∈ added, c.mode = .negated) → p.nodeNames = pn.nodeNames ∧ p.edgeNames = pn.edgeNames) ∧
      (p.nodeNames = pn.nodeNames → p.edgeNames = pn.edgeNames →
        ∃ r, ofText o (n ++ " ![" ++ c ++ "]") = .ok r ∧
          r.parts = [⟨place, conjunction? (bracket .negated [k] :: items)⟩]) := by
  obtain ⟨hblank, hn⟩ := ofText_eq_ok_iff.1 hn
  obtain ⟨d₀, rest₀, parts, names, hbegin, hrun, rfl⟩ := read_eq_ok_iff.1 hn
  obtain ⟨part, rfl⟩ := List.length_eq_one_iff.1 hone
  obtain ⟨d₁, rest₁, hprogress, hnone, -, -⟩ := beginPart_append hbegin
  cases hprogress
  obtain ⟨d, rest, hpasses, hframes, rfl, rfl, hend⟩ := Draft.passes_of_run_single hrun hnone
  have hparts : d.parts = [] := hpasses.part.1.trans hnone
  -- The three texts behind the node expression, read from its end on.
  let bracketed (mode : Mode) : List Char := mode.mark.toList ++ '[' :: (c.toList ++ [']'])
  have hbehind : (n ++ " " ++ c).toList = n.toList ++ ' ' :: c.toList := by simp
  have hplain : (n ++ " [" ++ c ++ "]").toList = n.toList ++ ' ' :: bracketed .plain := by simp [bracketed, Mode.mark]
  have hnegated : (n ++ " ![" ++ c ++ "]").toList = n.toList ++ ' ' :: bracketed .negated := by simp [bracketed, Mode.mark]
  obtain ⟨parts, names, hrunp, rfl⟩ := (ofText_behind_eq_ok_iff hblank hbegin hpasses hbehind).1 hp
  obtain ⟨partsq, namesq, hrunq, rfl⟩ := (ofText_behind_eq_ok_iff hblank hbegin hpasses hplain).1 hq
  rcases hend with ⟨hbare, hrest⟩ | ⟨henclosed, after, hmark, hafter⟩
  swap
  · exact absurd hrunq (Draft.run_fails_of_enclosed hframes henclosed hmark hafter (c.toList ++ [']']))
  rw [Draft.run_open_space hrest] at hrunq
  have htrim : Text.trimStart (rest ++ ' ' :: c.toList) = Text.trimStart c.toList :=
    (trimStart_append_of_blank hrest _).trans rfl
  obtain ⟨d', added, k, hreads, e⟩ := Draft.reads_of_run_opened hframes hbare hrunp htrim hrunq
  cases e
  rw [hreads.run_opened .plain (fun e => by cases e)] at hrunq
  cases hrunq
  obtain ⟨rest', hinner, -⟩ := hreads.passes
  have hsame : d'.names.size = d.names.size →
      Pairs.keys d'.names.nodes = Pairs.keys d.names.nodes ∧ d'.names.edges = d.names.edges := hinner.names.eq_of_size
  refine ⟨d.place, d.items, added, k, ⟨hreads.whole, rfl, ?_, ?_⟩, fun hneg => hsame (hreads.size_eq hneg), fun hnodes hedges => ?_⟩
  · simp only [Draft.done, hinner.part.1, hinner.part.2.1, hparts, hreads.items, List.reverse_singleton]
  · simp only [hparts, List.reverse_singleton]
  · have hrunr := hreads.run_opened .negated (fun _ => Names.size_eq hnodes hedges) (Input.of (n ++ " ![" ++ c ++ "]"))
    rw [← Draft.run_open_space hrest] at hrunr
    refine ⟨_, (ofText_behind_eq_ok_iff hblank hbegin hpasses hnegated).2 ⟨_, _, hrunr, rfl⟩, ?_⟩
    simp only [hparts, List.reverse_singleton]

end Treebank.Pattern

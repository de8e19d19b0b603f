import Treebank.Proofs.Pattern.Stack

/-!
# Runs of reading

A run within a part is a chain of moves, and so goes alike on every ground and whatever follows. It comes to the end of the
constraints on the token at the top of the part; what is read from there decides whether the pattern ends.
-/

namespace Treebank.Pattern

variable {cs more rest text : List Char} {i : Input} {outer : List Constraint} {below : List Frame}

namespace Draft

variable {d d' e : Draft}

/-- A chain of steps within a part, from the text `cs` to the text `rest`. -/
inductive Passes (i : Input) : Draft → List Char → Draft → List Char → Prop where
  | done (d : Draft) (cs : List Char) : Passes i d cs d cs
  | step {d d₁ d' : Draft} {cs cs₁ rest : List Char} (h : d.step i cs = .ok (.reading d₁ cs₁)) (hin : ¬ d.AtEnd cs)
      (hlt : cs₁.length < cs.length) (hrest : Passes i d₁ cs₁ d' rest) : Passes i d cs d' rest

/-! ## Chains of moves -/

/-- A run within a part stays within it. -/
theorem Passes.part (h : Passes i d cs d' rest) : d'.parts = d.parts ∧ d'.place = d.place ∧ d'.enclosed = d.enclosed := by
  induction h with
  | done d cs => exact ⟨rfl, rfl, rfl⟩
  | step h hin hlt hrest ih =>
    obtain ⟨m, -, -, hmove, -⟩ := step_makes_move h hin
    obtain ⟨hparts, hplace, henclosed⟩ := hmove.part
    exact ⟨ih.1.trans hparts, ih.2.1.trans hplace, ih.2.2.trans henclosed⟩

/-- A run within a part keeps the names. -/
theorem Passes.names (h : Passes i d cs d' rest) : d.names.Extends d'.names := by
  induction h with
  | done d cs => exact d.names.extends_refl
  | step h hin hlt hrest ih =>
    obtain ⟨m, -, hallows, hmove, -⟩ := step_makes_move h hin
    exact (hmove.names hallows).trans ih

/-- A run within a part keeps the modes at the bottom. If all of them are negated in the end, it brought in no name. -/
theorem Passes.bottomModes (h : Passes i d cs d' rest) :
    Pattern.bottomModes d.frames d.items <:+ Pattern.bottomModes d'.frames d'.items ∧
      ((∀ mode ∈ Pattern.bottomModes d'.frames d'.items, mode = .negated) → d'.names.size = d.names.size) := by
  induction h with
  | done d cs => exact ⟨List.suffix_refl _, fun _ => rfl⟩
  | step h hin hlt hrest ih =>
    obtain ⟨m, -, hallows, hmove, -⟩ := step_makes_move h hin
    obtain ⟨hsuffix, hsize⟩ := hmove.bottomModes hallows
    refine ⟨hsuffix.trans ih.1, fun hneg => ?_⟩
    rw [ih.2 hneg, hsize fun mode hm => hneg mode (ih.1.subset hm)]

/-- A run goes on from where a step comes to. -/
theorem run_of_step (h : d.step i cs = .ok (.reading d' rest)) (hlt : rest.length < cs.length) : d.run i cs = d'.run i rest := by
  rw [run, h]
  exact if_pos hlt

/-- A run goes on from where a chain of steps comes to. -/
theorem Passes.run_eq (h : Passes i d cs d' rest) : d.run i cs = d'.run i rest := by
  induction h with
  | done d cs => rfl
  | step h hin hlt hrest ih => exact (run_of_step h hlt).trans ih

/-- What is within a part on one ground is so on another one, whatever follows. -/
theorem Regrounded.not_atEnd (h : Regrounded outer below d e) (hin : ¬ d.AtEnd cs) (more : List Char) : ¬ e.AtEnd (cs ++ more) := by
  rintro ⟨hframes, hhead⟩
  refine hin ⟨h.stack.nil_of_nil hframes, fun c hc => ?_⟩
  cases ht : Text.trimStart cs with
  | nil =>
    rw [ht] at hc
    cases hc
  | cons b text =>
    rw [ht] at hc
    rw [trimStart_append ht] at hhead
    exact hhead c hc

/-- A chain of steps on one ground is one on another ground, whatever follows, unless a negation below keeps names out. -/
theorem Passes.regrounded (h : Passes i d cs d' rest) (hs : Stops more) (he : Regrounded outer below d e)
    (hbelow : below.any Frame.isNegated = true → d'.names.size = d.names.size) (i' : Input) :
    ∃ e', Regrounded outer below d' e' ∧ Passes i' e (cs ++ more) e' (rest ++ more) := by
  induction h generalizing e with
  | done d cs => exact ⟨e, he, .done e _⟩
  | step h hin hlt hrest ih =>
    rename_i d d₁ d' cs cs₁ rest
    obtain ⟨m, -, hallows, hmove, hreplay⟩ := step_makes_move h hin
    -- The names grow along the chain, so if they do not in all, they do not in any step.
    have hext := hmove.names hallows
    have hnone : below.any Frame.isNegated = true → d₁.names.size = d.names.size ∧ d'.names.size = d₁.names.size := by
      intro hu
      have hle := hext.size_le
      have hle' := hrest.names.size_le
      have := hbelow hu
      omega
    obtain ⟨e₁, hmove', he₁⟩ := he.moves hmove
    obtain ⟨e', he', hpasses⟩ := ih he₁ fun hu => (hnone hu).2
    refine ⟨e', he', .step ?_ (he.not_atEnd hin more) (by simpa using hlt) hpasses⟩
    exact hreplay hs he.names (he.allows hmove hallows fun hu => (hnone hu).1) hmove'

/-- A draft on its own ground. -/
theorem Regrounded.eq (h : Regrounded [] [] d e) : e = d := by
  obtain ⟨parts, place, enclosed, frames, items, names⟩ := d
  obtain ⟨parts', place', enclosed', frames', items', names'⟩ := e
  obtain ⟨rfl, rfl, rfl, rfl, hstack⟩ := h
  obtain ⟨rfl, rfl⟩ := hstack.eq
  rfl

/-- A chain of steps is one whatever follows. -/
theorem Passes.append (h : Passes i d cs d' rest) (hs : Stops more) (i' : Input) :
    Passes i' d (cs ++ more) d' (rest ++ more) := by
  obtain ⟨e', he', hpasses⟩ := h.regrounded hs d.regrounded_refl (fun hu => by cases hu) i'
  rwa [he'.eq] at hpasses

/-! ## The end of a part -/

/-- Reading a relation does not end a pattern. -/
theorem takeItem_ne_finished {parts : List Part} {names : Names} : d.takeItem i text ≠ .ok (.finished parts names) := by
  intro h
  unfold takeItem at h
  simp only at h
  split at h
  · cases h
  split at h
  · cases h
  · unfold takeRelation at h
    obtain ⟨operator, -, h⟩ := bind_eq_ok_iff.1 h
    obtain ⟨names, -, h⟩ := bind_eq_ok_iff.1 h
    obtain ⟨place, -, h⟩ := bind_eq_ok_iff.1 h
    cases h

/-- A pattern ends at the end of a part. -/
theorem atEnd_of_finished {parts : List Part} {names : Names} (h : d.step i cs = .ok (.finished parts names)) : d.AtEnd cs := by
  have hclose : ∀ text : List Char, d.close i text = .ok (.finished parts names) → d.frames = [] := by
    intro text h
    unfold close at h
    split at h
    · split at h
      · cases h
      · split at h <;> cases h
    · split at h <;> cases h
    · assumption
  unfold step at h
  split at h
  · rename_i ht
    refine ⟨hclose _ h, fun c hc => ?_⟩
    rw [ht] at hc
    cases hc
  · split at h
    · cases h
    · split at h <;> cases h
  · rename_i c text _ ht
    split at h
    · rename_i hc
      refine ⟨hclose _ h, fun b hb => ?_⟩
      rw [ht] at hb
      cases hb
      exact hc
    · exact absurd h takeItem_ne_finished

/-- A run comes to the end of the constraints on the token at the top of the part. -/
theorem passes_of_run {r : List Part × Names} (h : d.run i cs = .ok r) :
    ∃ d' rest, Passes i d cs d' rest ∧ d'.AtEnd rest ∧ d'.run i rest = .ok r := by
  induction d, cs using run.induct i with
  | case1 d cs e he =>
    rw [run, he] at h
    cases h
  | case2 d cs parts names hf => exact ⟨d, cs, .done d cs, atEnd_of_finished hf, h⟩
  | case3 d cs d₁ cs₁ hstep hlt ih =>
    by_cases hend : d.AtEnd cs
    · exact ⟨d, cs, .done d cs, hend, h⟩
    · have hrun : d.run i cs = d₁.run i cs₁ := (Passes.step hstep hend hlt (.done d₁ cs₁)).run_eq
      obtain ⟨d', rest, hpasses, hat, hlast⟩ := ih (hrun ▸ h)
      exact ⟨d', rest, .step hstep hend hlt hpasses, hat, hlast⟩
  | case4 d cs d₁ cs₁ hstep hlt =>
    rw [run, hstep] at h
    simp only [if_neg hlt] at h
    cases h

end Draft

end Treebank.Pattern

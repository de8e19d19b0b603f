import Mathlib.Init

/-!
# Laws of computations that may fail

When two computations one after the other succeed, and when they fail.
-/

namespace Treebank

variable {ε α β : Type} {x : Except ε α} {f : α → Except ε β}

theorem bind_ok (a : α) (f : α → Except ε β) : Except.ok a >>= f = f a := rfl

theorem bind_error (e : ε) (f : α → Except ε β) : Except.error e >>= f = .error e := rfl

theorem mapError_ok {ε' : Type} (f : ε → ε') (a : α) : (Except.ok a).mapError f = .ok a := rfl

/-- Two computations succeed, one after the other, exactly if the first one does and then the second one. -/
theorem bind_eq_ok_iff {b : β} : x >>= f = .ok b ↔ ∃ a, x = .ok a ∧ f a = .ok b := by
  cases x with
  | error e => simp [bind, Except.bind]
  | ok a => simp [bind, Except.bind]

/-- Two computations fail, one after the other, exactly if the first one does, or does not and the second one does. -/
theorem bind_eq_error_iff {e : ε} : x >>= f = .error e ↔ x = .error e ∨ ∃ a, x = .ok a ∧ f a = .error e := by
  cases x with
  | error e' => simp [bind, Except.bind]
  | ok a => simp [bind, Except.bind]

/-- A computation whose error is put in other terms succeeds exactly if it does so without. -/
theorem mapError_eq_ok_iff {ε' : Type} {f : ε → ε'} {a : α} : x.mapError f = .ok a ↔ x = .ok a := by
  cases x with
  | error e => constructor <;> intro h <;> cases h
  | ok b => exact ⟨fun h => congrArg _ (Except.ok.inj h), fun h => congrArg _ (Except.ok.inj h)⟩

/-- If the first of two computations fails, so do both, one after the other. -/
theorem bind_fails_left (h : ∃ e, x = .error e) : ∃ e, x >>= f = .error e := by
  obtain ⟨e, rfl⟩ := h
  exact ⟨e, rfl⟩

/-- If the second of two computations fails in any case, so do both, one after the other. -/
theorem bind_fails_right (h : ∀ a, ∃ e, f a = .error e) : ∃ e, x >>= f = .error e := by
  cases x with
  | error e => exact ⟨e, rfl⟩
  | ok a => exact h a

/-- A computation that maps a list fails if it fails on a member. -/
theorem mapM_fails {l : List α} {a : α} (ha : a ∈ l) (hf : ∃ e, f a = .error e) : ∃ e, l.mapM f = .error e := by
  induction l with
  | nil => simp at ha
  | cons b l ih =>
    rw [List.mapM_cons]
    rcases List.mem_cons.1 ha with rfl | ha
    · exact bind_fails_left hf
    · exact bind_fails_right fun c => bind_fails_left (ih ha)

/-- If a computation that maps a list fails, it does so on a member and on none before. -/
theorem of_mapM_eq_error {l : List α} {e : ε} (h : l.mapM f = .error e) :
    ∃ before a after, l = before ++ a :: after ∧ (∀ b ∈ before, ∃ c, f b = .ok c) ∧ f a = .error e := by
  induction l with
  | nil => cases h
  | cons b l ih =>
    rw [List.mapM_cons] at h
    rcases bind_eq_error_iff.1 h with hb | ⟨c, hb, h⟩
    · exact ⟨[], b, l, rfl, List.forall_mem_nil _, hb⟩
    · rcases bind_eq_error_iff.1 h with hl | ⟨cs, -, h⟩
      · obtain ⟨before, a, after, rfl, hbefore, ha⟩ := ih hl
        exact ⟨b :: before, a, after, rfl, List.forall_mem_cons.2 ⟨⟨c, hb⟩, hbefore⟩, ha⟩
      · cases h

/-- If a computation that maps a list fails, it does so on a member. -/
theorem exists_error_of_mapM {l : List α} {e : ε} (h : l.mapM f = .error e) : ∃ a ∈ l, f a = .error e := by
  obtain ⟨before, a, after, rfl, -, ha⟩ := of_mapM_eq_error h
  exact ⟨a, by simp, ha⟩

/-- A computation that maps a list succeeds if it succeeds on every member. -/
theorem mapM_eq_ok {l : List α} {g : α → β} (h : ∀ a ∈ l, f a = .ok (g a)) : l.mapM f = .ok (l.map g) := by
  induction l with
  | nil => rfl
  | cons a l ih =>
    rw [List.mapM_cons, h a (List.mem_cons_self ..), ih fun b hb => h b (List.mem_cons_of_mem a hb)]
    rfl

/-- A computation that maps a list succeeds exactly if it does so on every member. -/
theorem mapM_eq_ok_iff {l : List α} {bs : List β} {p : α → Prop} {g : α → β} (h : ∀ a ∈ l, ∀ b, f a = .ok b ↔ p a ∧ b = g a) :
    l.mapM f = .ok bs ↔ (∀ a ∈ l, p a) ∧ bs = l.map g := by
  constructor
  · intro hok
    have hall : ∀ a ∈ l, p a := by
      intro a ha
      cases hfa : f a with
      | ok b => exact ((h a ha b).1 hfa).1
      | error e =>
        obtain ⟨e', he'⟩ := mapM_fails ha ⟨e, hfa⟩
        rw [he'] at hok
        cases hok
    have hmap := mapM_eq_ok fun a ha => (h a ha (g a)).2 ⟨hall a ha, rfl⟩
    rw [hmap] at hok
    exact ⟨hall, (Except.ok.inj hok).symm⟩
  · rintro ⟨hall, rfl⟩
    exact mapM_eq_ok fun a ha => (h a ha (g a)).2 ⟨hall a ha, rfl⟩

/-- A computation that maps a list succeeds if it succeeds on every member; what it comes to can be found without it. -/
theorem mapM_eq_ok_filterMap {l : List α} {g : α → Option β} (h : ∀ a ∈ l, ∃ b, f a = .ok b ∧ g a = some b) :
    l.mapM f = .ok (l.filterMap g) := by
  induction l with
  | nil => rfl
  | cons a l ih =>
    obtain ⟨b, hf, hg⟩ := h a (List.mem_cons_self ..)
    rw [List.mapM_cons, hf, ih fun c hc => h c (List.mem_cons_of_mem a hc), List.filterMap_cons, hg]
    rfl

/-- Computations that succeed, one after the other, with their results in one list. -/
theorem flatten_mapM_eq_ok {l : List α} {f : α → Except ε (List β)} {g : α → List β} (h : ∀ a ∈ l, f a = .ok (g a)) :
    (do return (← l.mapM f).flatten) = (.ok (l.flatMap g) : Except ε (List β)) :=
  bind_eq_ok_iff.2 ⟨_, mapM_eq_ok h, rfl⟩

/-- A check of all members of a list passes if it passes on every one. -/
theorem forM_eq_ok {l : List α} {f : α → Except ε Unit} (h : ∀ a ∈ l, f a = .ok ()) : l.forM f = .ok () := by
  induction l with
  | nil => rfl
  | cons a l ih =>
    exact bind_eq_ok_iff.2 ⟨_, h a (List.mem_cons_self ..), ih fun b hb => h b (List.mem_cons_of_mem a hb)⟩

/-- A computation whose result is looked at succeeds. -/
theorem exists_ok_of_map_toOption {b : β} {g : α → β} (h : x.toOption.map g = some b) : ∃ a, x = .ok a ∧ g a = b := by
  cases x with
  | error e => cases h
  | ok a => exact ⟨a, rfl, Option.some.inj h⟩

/-- Steps fail, one after the other, exactly if one does after those before it. -/
theorem foldlM_eq_error_iff {f : β → α → Except ε β} {l : List α} {b : β} {e : ε} : l.foldlM f b = .error e ↔
    ∃ before a after b', l = before ++ a :: after ∧ before.foldlM f b = .ok b' ∧ f b' a = .error e := by
  induction l generalizing b with
  | nil =>
    refine iff_of_false (fun h => by cases h) ?_
    rintro ⟨before, a, after, _, h, -⟩
    simp at h
  | cons c l ih =>
    rw [List.foldlM_cons, bind_eq_error_iff]
    constructor
    · rintro (hc | ⟨b₁, hc, h⟩)
      · exact ⟨[], c, l, b, rfl, rfl, hc⟩
      · obtain ⟨before, a, after, b', rfl, hbefore, ha⟩ := ih.1 h
        exact ⟨c :: before, a, after, b', rfl, bind_eq_ok_iff.2 ⟨b₁, hc, hbefore⟩, ha⟩
    · rintro ⟨before, a, after, b', hl, hbefore, ha⟩
      cases before with
      | nil =>
        obtain ⟨rfl, -⟩ := List.cons.inj hl
        cases hbefore
        exact .inl ha
      | cons d before =>
        obtain ⟨rfl, rfl⟩ := List.cons.inj hl
        obtain ⟨b₁, hc, hbefore⟩ := bind_eq_ok_iff.1 hbefore
        exact .inr ⟨b₁, hc, ih.2 ⟨before, a, after, b', rfl, hbefore, ha⟩⟩

/-- A computation whose error is looked at fails. -/
theorem eq_error_of_match {e : ε} (h : (match x with | .error e => some e | .ok _ => none) = some e) : x = .error e := by
  cases x with
  | error e' => exact congrArg _ (Option.some.inj h)
  | ok a => cases h

end Treebank

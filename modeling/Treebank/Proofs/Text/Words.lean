import Treebank.Proofs.Text.Pieces

/-!
# Laws of blanks

A text that neither begins nor ends with a blank is left as it is when the blanks around it are dropped, and so are texts that are
joined of such ones. Words with a space between two of them come out again.
-/

namespace Treebank.Text

variable {sep : Char} {cs word rest : List Char} {pieces : List (List Char)}

/-! ## Blanks around a text -/

/-- Whether a text neither begins nor ends with a blank. -/
structure IsTrimmed (cs : List Char) : Prop where
  first : ∀ c ∈ cs.head?, isBlank c = false
  last : ∀ c ∈ cs.getLast?, isBlank c = false

instance (cs : List Char) : Decidable (IsTrimmed cs) :=
  decidable_of_iff (cs.head?.all (isBlank · == false) ∧ cs.getLast?.all (isBlank · == false)) (by
    rw [Option.all_eq_true, Option.all_eq_true]
    exact ⟨fun h => ⟨fun c hc => eq_of_beq (h.1 c hc), fun c hc => eq_of_beq (h.2 c hc)⟩,
      fun h => ⟨fun c hc => beq_iff_eq.2 (h.first c hc), fun c hc => beq_iff_eq.2 (h.last c hc)⟩⟩)

/-- A text that does not begin with a blank keeps its beginning. -/
theorem trimStart_eq_self (h : ∀ c ∈ cs.head?, isBlank c = false) : trimStart cs = cs := by
  cases cs with
  | nil => rfl
  | cons c cs => exact List.dropWhile_cons_of_neg (by simp [h c rfl])

/-- A text without blanks around it is left. -/
theorem trim_eq_self (h : IsTrimmed cs) : trim cs = cs := by
  rw [trim, trimStart_eq_self h.first, dropEndWhile]
  have hend : cs.reverse.dropWhile isBlank = cs.reverse := by
    refine trimStart_eq_self fun c hc => h.last c ?_
    rwa [List.head?_reverse] at hc
  rw [hend, List.reverse_reverse]

/-- A text without its blanks neither begins nor ends with one. -/
theorem isTrimmed_trim (cs : List Char) : IsTrimmed (trim cs) := by
  constructor
  · intro c hc
    have hstart := List.head?_dropWhile_not isBlank (trim cs)
    rw [show (trim cs).dropWhile isBlank = trim cs from trimStart_trim cs, hc] at hstart
    simpa using hstart
  · intro c hc
    have hend : (trim cs).rdropWhile isBlank = trim cs := List.rdropWhile_idempotent _ _
    obtain ⟨hne, rfl⟩ := List.mem_getLast?_eq_getLast hc
    simpa using List.rdropWhile_eq_self_iff.1 hend hne

/-- Nothing is left of a text without its blanks exactly if it is blank. -/
theorem trim_eq_nil_iff {cs : List Char} : trim cs = [] ↔ isAllBlank cs := by
  rw [isAllBlank, List.all_eq_true]
  constructor
  · intro h
    have hstart : trimStart cs = [] := by
      by_contra hne
      have hall : ∀ c ∈ trimStart cs, isBlank c := List.rdropWhile_eq_nil_iff.1 h
      have hhead : isBlank ((trimStart cs).head hne) = false := List.head_dropWhile_not isBlank hne
      rw [hall _ (List.head_mem hne)] at hhead
      cases hhead
    exact List.dropWhile_eq_nil_iff.1 hstart
  · intro h
    rw [trim, show trimStart cs = [] from List.dropWhile_eq_nil_iff.2 h]
    rfl

/-- A text between two characters that are no blanks has none around it. -/
theorem isTrimmed_enclosed {first last : Char} (hfirst : isBlank first = false) (hlast : isBlank last = false) (cs : List Char) :
    IsTrimmed (first :: (cs ++ [last])) := by
  refine ⟨fun c hc => ?_, fun c hc => ?_⟩
  · cases hc
    exact hfirst
  · rw [← List.cons_append, List.getLast?_concat] at hc
    cases hc
    exact hlast

/-- Texts without blanks around them, joined, have none. -/
theorem isTrimmed_intercalate (hne : ∀ piece ∈ pieces, piece ≠ []) (h : ∀ piece ∈ pieces, IsTrimmed piece) :
    IsTrimmed ([sep].intercalate pieces) := by
  induction pieces with
  | nil => exact ⟨fun _ hc => by simp at hc, fun _ hc => by simp at hc⟩
  | cons piece pieces ih =>
    obtain ⟨hpiece, hpieces⟩ := List.forall_mem_cons.1 h
    obtain ⟨hp, hps⟩ := List.forall_mem_cons.1 hne
    cases pieces with
    | nil =>
      rw [List.intercalate_singleton]
      exact hpiece
    | cons next pieces =>
      obtain ⟨c, rest, rfl⟩ := List.exists_cons_of_ne_nil hp
      have hrest := ih hps hpieces
      have hne' : [sep].intercalate (next :: pieces) ≠ [] := by
        obtain ⟨hnext, -⟩ := List.forall_mem_cons.1 hps
        cases pieces with
        | nil => rwa [List.intercalate_singleton]
        | cons _ _ => simp [List.intercalate_cons_cons, hnext]
      rw [List.intercalate_cons_cons, List.append_assoc]
      refine ⟨hpiece.first, ?_⟩
      rw [List.getLast?_append_of_ne_nil _ (by simp), List.getLast?_append_of_ne_nil _ hne']
      exact hrest.last

/-! ## Words -/

/-- A text is joined of its first piece and what follows. -/
theorem intercalate_cons (piece : List Char) (pieces : List (List Char)) :
    [sep].intercalate (piece :: pieces) = piece ++ (if pieces = [] then [] else sep :: [sep].intercalate pieces) := by
  cases pieces with
  | nil => simp
  | cons next pieces => simp [List.intercalate_cons_cons]

/-- A blank before the words is passed over. -/
theorem words_cons_of_isBlank {c : Char} (h : isBlank c = true) (cs : List Char) : words (c :: cs) = words cs := by
  rw [words.eq_def (c :: cs)]
  exact if_pos h

/-- A word is not empty and holds no blank. -/
theorem of_mem_words (h : word ∈ words cs) : word ≠ [] ∧ ∀ c ∈ word, isBlank c = false := by
  fun_induction words cs generalizing word with
  | case1 => cases h
  | case2 c cs hc ih => exact ih h
  | case3 c hc =>
    obtain rfl := List.mem_singleton.1 h
    simpa using hc
  | case4 c hc d rest hd ih =>
    rcases List.mem_cons.1 h with rfl | h
    · simpa using hc
    · exact ih h
  | case5 c hc d rest hd hnil ih =>
    rw [hnil] at h
    obtain rfl := List.mem_singleton.1 h
    simpa using hc
  | case6 c hc d rest hd w ws hwords ih =>
    rw [hwords] at h ih
    rcases List.mem_cons.1 h with rfl | h
    · exact ⟨List.cons_ne_nil c w, List.forall_mem_cons.2 ⟨by simpa using hc, (ih (List.mem_cons_self ..)).2⟩⟩
    · exact ih (List.mem_cons_of_mem w h)

/-- A word ends at a space. -/
theorem words_append (hne : word ≠ []) (h : ∀ c ∈ word, isBlank c = false) (rest : List Char) :
    words (word ++ ' ' :: rest) = word :: words rest := by
  induction word with
  | nil => exact absurd rfl hne
  | cons c word ih =>
    obtain ⟨hc, hword⟩ := List.forall_mem_cons.1 h
    have hspace : isBlank ' ' = true := by decide
    cases word with
    | nil =>
      rw [List.singleton_append, words]
      simp only [hc, Bool.false_eq_true, if_false, hspace, if_true, words_cons_of_isBlank]
    | cons d word =>
      have hd := hword d (List.mem_cons_self ..)
      have hnext := ih (List.cons_ne_nil d word) hword
      rw [List.cons_append] at hnext
      rw [List.cons_append, List.cons_append, words]
      simp only [hc, hd, Bool.false_eq_true, if_false, hnext]

/-- A word is its own only one. -/
theorem words_eq_singleton (hne : word ≠ []) (h : ∀ c ∈ word, isBlank c = false) : words word = [word] := by
  induction word with
  | nil => exact absurd rfl hne
  | cons c word ih =>
    obtain ⟨hc, hword⟩ := List.forall_mem_cons.1 h
    cases word with
    | nil =>
      rw [words]
      simp only [hc, Bool.false_eq_true, if_false]
    | cons d word =>
      have hd := hword d (List.mem_cons_self ..)
      rw [words]
      simp only [hc, hd, Bool.false_eq_true, if_false, ih (List.cons_ne_nil d word) hword]

/-- Words with a space between two of them come out again. -/
theorem words_intercalate (hne : ∀ word ∈ pieces, word ≠ []) (h : ∀ word ∈ pieces, ∀ c ∈ word, isBlank c = false) :
    words ([' '].intercalate pieces) = pieces := by
  induction pieces with
  | nil => rfl
  | cons word pieces ih =>
    obtain ⟨hword, hwords⟩ := List.forall_mem_cons.1 h
    obtain ⟨hw, hws⟩ := List.forall_mem_cons.1 hne
    rw [intercalate_cons]
    split
    · rename_i hnil
      rw [hnil, List.append_nil, words_eq_singleton hw hword]
    · rw [words_append hw hword, ih hws hwords]

/-- What is behind the first word of a text is a part of it. -/
theorem firstWord?_sublist (h : firstWord? cs = some (word, rest)) : rest.Sublist cs := by
  unfold firstWord? at h
  split at h
  · cases h
  · cases h
    exact ((List.dropWhile_sublist _).trans (List.dropWhile_sublist _)).trans (List.dropWhile_sublist _)

/-- The first of some texts is cut off, if it is a word and the next one does not begin with a blank. -/
theorem firstWord?_intercalate (hne : word ≠ []) (hword : ∀ c ∈ word, isBlank c = false)
    (hrest : ∀ c ∈ ([' '].intercalate pieces).head?, isBlank c = false) :
    firstWord? ([' '].intercalate (word :: pieces)) = some (word, [' '].intercalate pieces) := by
  obtain ⟨c, cs, rfl⟩ := List.exists_cons_of_ne_nil hne
  have hc := hword c (List.mem_cons_self ..)
  have hfilled : ∀ d ∈ c :: cs, (!isBlank d) = true := fun d hd => by rw [hword d hd]; rfl
  have hspace : ∀ d ∈ (if pieces = [] then [] else ' ' :: [' '].intercalate pieces).head?, (!isBlank d) = false := by
    intro d hd
    split at hd
    · cases hd
    · cases hd
      decide
  have hstart : trimStart ([' '].intercalate ((c :: cs) :: pieces)) = [' '].intercalate ((c :: cs) :: pieces) := by
    rw [intercalate_cons]
    exact trimStart_eq_self fun d hd => by cases hd; exact hc
  have hbehind : trimStart (if pieces = [] then [] else ' ' :: [' '].intercalate pieces) = [' '].intercalate pieces := by
    split
    · rename_i hnil
      rw [hnil]
      rfl
    · rw [trimStart, List.dropWhile_cons_of_pos (by decide)]
      exact trimStart_eq_self hrest
  unfold firstWord?
  rw [hstart, intercalate_cons, List.cons_append]
  show some (((c :: cs) ++ _).takeWhile _, trimStart (((c :: cs) ++ _).dropWhile _)) = _
  rw [takeWhile_append_of_head hfilled hspace, dropWhile_append_of_head hfilled hspace, hbehind]

end Treebank.Text

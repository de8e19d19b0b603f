import Treebank.Text.Blank
import Treebank.Text.Pieces
import Mathlib.Algebra.Ring.Nat
import Mathlib.Data.List.DropRight

/-!
# Laws of cutting and joining

Pieces that are joined with a separator that none of them holds come out again when the text is cut at it; so do lines that are
ended with line feeds. Pieces of a text hold no separator, and nothing that the text does not hold.
-/

namespace Treebank.Text

variable {sep : Char} {cs piece rest : List Char}

/-! ## Pieces -/

/-- A piece ends at the first separator. -/
theorem splitOn_append (h : sep ∉ piece) (rest : List Char) : splitOn sep (piece ++ sep :: rest) = piece :: splitOn sep rest := by
  induction piece with
  | nil => simp [splitOn]
  | cons c piece ih =>
    rw [List.mem_cons, not_or] at h
    rw [List.cons_append, splitOn, if_neg (Ne.symm h.1), ih h.2]

/-- A text without the separator is one piece. -/
theorem splitOn_of_notMem (h : sep ∉ piece) : splitOn sep piece = [piece] := by
  induction piece with
  | nil => rfl
  | cons c piece ih =>
    rw [List.mem_cons, not_or] at h
    rw [splitOn, if_neg (Ne.symm h.1), ih h.2]

/-- Joined pieces come out again. -/
theorem splitOn_intercalate {pieces : List (List Char)} (hne : pieces ≠ []) (h : ∀ piece ∈ pieces, sep ∉ piece) :
    splitOn sep ([sep].intercalate pieces) = pieces := by
  induction pieces with
  | nil => exact absurd rfl hne
  | cons piece pieces ih =>
    have hpiece := h piece (List.mem_cons_self ..)
    cases pieces with
    | nil => rw [List.intercalate_singleton, splitOn_of_notMem hpiece]
    | cons next pieces =>
      rw [List.intercalate_cons_cons, List.append_assoc, List.singleton_append, splitOn_append hpiece,
        ih (List.cons_ne_nil _ _) fun p hp => h p (List.mem_cons_of_mem _ hp)]

/-- A text is cut at a character as any list is. -/
theorem splitOn_eq (sep : Char) (cs : List Char) : splitOn sep cs = cs.splitOn sep := by
  induction cs with
  | nil => rfl
  | cons c cs ih =>
    rw [splitOn, ih, @List.splitOn_eq_splitOnP _ _ sep (c :: cs), List.splitOnP_cons_eq_if_modifyHead, ← List.splitOn_eq_splitOnP]
    simp only [beq_iff_eq]
    split
    · rfl
    · obtain ⟨piece, pieces, hpieces⟩ := List.exists_cons_of_ne_nil (List.splitOn_ne_nil sep cs)
      rw [hpieces]
      rfl

/-- Joined pieces hold what the pieces hold and the separator. -/
theorem mem_intercalate {pieces : List (List Char)} {c : Char} (h : c ∈ [sep].intercalate pieces) :
    c = sep ∨ ∃ piece ∈ pieces, c ∈ piece := by
  induction pieces with
  | nil => cases h
  | cons piece pieces ih =>
    cases pieces with
    | nil => exact Or.inr ⟨piece, List.mem_cons_self .., by simpa using h⟩
    | cons next pieces =>
      rw [List.intercalate_cons_cons, List.append_assoc, List.mem_append, List.singleton_append, List.mem_cons] at h
      rcases h with h | h | h
      · exact Or.inr ⟨piece, List.mem_cons_self .., h⟩
      · exact Or.inl h
      · exact (ih h).imp_right fun ⟨p, hp, hc⟩ => ⟨p, List.mem_cons_of_mem _ hp, hc⟩

/-- Joined pieces hold a character as often as the pieces do together, unless it is the separator. -/
theorem count_intercalate {c : Char} (h : c ≠ sep) (pieces : List (List Char)) :
    ([sep].intercalate pieces).count c = (pieces.map (List.count c)).sum := by
  induction pieces with
  | nil => rfl
  | cons piece pieces ih =>
    cases pieces with
    | nil => simp
    | cons next pieces =>
      rw [List.intercalate_cons_cons, List.append_assoc, List.count_append, List.singleton_append, List.count_cons_of_ne h.symm, ih]
      rfl

/-- Joined pieces lack a character exactly if all of them do, unless it is the separator. -/
theorem notMem_intercalate_iff {c : Char} (h : c ≠ sep) {pieces : List (List Char)} :
    c ∉ [sep].intercalate pieces ↔ ∀ piece ∈ pieces, c ∉ piece := by
  rw [← List.count_eq_zero, count_intercalate h, List.sum_eq_zero_iff_forall_eq_nat, List.forall_mem_map]
  simp only [List.count_eq_zero]

/-- What is cut out of a list at some of its members holds none of them, and all of it stands in the list. -/
theorem of_mem_splitOnP {α : Type} {p : α → Bool} {l cut : List α} (h : cut ∈ l.splitOnP p) : (∀ a ∈ cut, p a = false) ∧ cut ⊆ l := by
  induction l generalizing cut with
  | nil =>
    rw [List.splitOnP_nil, List.mem_singleton] at h
    simp [h]
  | cons a l ih =>
    rw [List.splitOnP_cons_eq_if_modifyHead] at h
    split at h
    · rcases List.mem_cons.1 h with rfl | h
      · simp
      · exact ⟨(ih h).1, List.subset_cons_of_subset a (ih h).2⟩
    · rename_i ha
      obtain ⟨first, cuts, hcuts⟩ := List.exists_cons_of_ne_nil (List.splitOnP_ne_nil p l)
      rw [hcuts, List.modifyHead_cons] at h
      rw [hcuts] at ih
      rcases List.mem_cons.1 h with rfl | h
      · obtain ⟨hnone, hsub⟩ := ih (List.mem_cons_self ..)
        exact ⟨List.forall_mem_cons.2 ⟨by simpa using ha, hnone⟩, List.cons_subset_cons a hsub⟩
      · obtain ⟨hnone, hsub⟩ := ih (List.mem_cons_of_mem _ h)
        exact ⟨hnone, List.subset_cons_of_subset a hsub⟩

/-- No piece holds the separator, and all of it stands in the text. -/
theorem of_mem_splitOn (h : piece ∈ splitOn sep cs) : sep ∉ piece ∧ piece ⊆ cs := by
  rw [splitOn_eq, List.splitOn_eq_splitOnP] at h
  obtain ⟨hnone, hsub⟩ := of_mem_splitOnP h
  exact ⟨fun hsep => by simpa using hnone sep hsep, hsub⟩

/-- The pieces of a text hold a character as often together as the text does, unless it is the separator. -/
theorem sum_count_splitOn {c : Char} (h : c ≠ sep) (cs : List Char) : ((splitOn sep cs).map (List.count c)).sum = cs.count c := by
  rw [← count_intercalate h, splitOn_eq, List.intercalate_splitOn]

/-- A text is cut at the first separator. -/
theorem splitFirst?_append (h : sep ∉ piece) (rest : List Char) :
    splitFirst? sep (piece ++ sep :: rest) = some (piece, rest) := by
  induction piece with
  | nil => simp [splitFirst?]
  | cons c piece ih =>
    rw [List.mem_cons, not_or] at h
    rw [List.cons_append, splitFirst?, if_neg (Ne.symm h.1), ih h.2]
    rfl

/-- A text is not cut at its last separator exactly if it lacks the separator. -/
theorem splitLast?_eq_none_iff : splitLast? sep cs = none ↔ sep ∉ cs := by
  rw [splitLast?, Option.map_eq_none_iff, splitFirst?_eq_none_iff, List.mem_reverse]

/-- A text that is cut at its last separator is what stands before, the separator, and what stands after. -/
theorem of_splitLast?_eq_some {before after : List Char} (h : splitLast? sep cs = some (before, after)) :
    cs = before ++ sep :: after ∧ sep ∉ after := by
  obtain ⟨⟨after', before'⟩, hs, he⟩ := Option.map_eq_some_iff.1 h
  cases he
  obtain ⟨hcs, hsep⟩ := of_splitFirst?_eq_some hs
  refine ⟨?_, by simpa using hsep⟩
  have hrev := congrArg List.reverse hcs
  simpa using hrev

/-! ## Lines -/

/-- A line ends at the first line feed. -/
theorem lines_append (h : ∀ c ∈ piece, isLineBreak c = false) (rest : List Char) :
    lines (piece ++ '\n' :: rest) = piece :: lines rest := by
  induction piece with
  | nil =>
    have hbreak : isLineBreak '\n' = true := by decide
    rw [List.nil_append, lines]
    · rw [if_pos hbreak]
    · exact fun cs hc => absurd hc (by decide)
  | cons c piece ih =>
    obtain ⟨hc, hpiece⟩ := List.forall_mem_cons.1 h
    have hreturn : c ≠ '\r' := by
      rintro rfl
      exact absurd hc (by decide)
    rw [List.cons_append, lines]
    · rw [if_neg (by simp [hc]), ih hpiece]
    · exact fun cs hc => absurd hc hreturn

/-- No line holds a line break. -/
theorem isLineBreak_of_mem_lines {cs l : List Char} (h : l ∈ lines cs) : ∀ c ∈ l, isLineBreak c = false := by
  fun_induction lines cs generalizing l with
  | case1 => cases h
  | case2 cs ih =>
    rcases List.mem_cons.1 h with rfl | h
    · simp
    · exact ih h
  | case3 c cs hreturn hbreak ih =>
    rcases List.mem_cons.1 h with rfl | h
    · simp
    · exact ih h
  | case4 c cs hreturn hbreak hnil ih =>
    rw [List.mem_singleton.1 h]
    simpa using hbreak
  | case5 c cs hreturn hbreak first ls hlines ih =>
    rw [hlines] at ih
    rcases List.mem_cons.1 h with rfl | h
    · exact List.forall_mem_cons.2 ⟨by simpa using hbreak, ih (List.mem_cons_self ..)⟩
    · exact ih (List.mem_cons_of_mem _ h)

/-- Lines that are ended with line feeds come out again. -/
theorem lines_flatMap {ls : List (List Char)} (h : ∀ l ∈ ls, ∀ c ∈ l, isLineBreak c = false) :
    lines (ls.flatMap (· ++ ['\n'])) = ls := by
  induction ls with
  | nil => rfl
  | cons l ls ih =>
    obtain ⟨hl, hls⟩ := List.forall_mem_cons.1 h
    rw [List.flatMap_cons, List.append_assoc, List.singleton_append, lines_append hl, ih hls]

/-- Lines that are joined with line feeds, and one after the last, are lines that are each ended with one. -/
theorem intercalate_append {ls : List (List Char)} (hne : ls ≠ []) :
    ['\n'].intercalate ls ++ ['\n'] = ls.flatMap (· ++ ['\n']) := by
  induction ls with
  | nil => exact absurd rfl hne
  | cons l ls ih =>
    cases ls with
    | nil => simp
    | cons next ls =>
      rw [List.intercalate_cons_cons, List.append_assoc, ih (List.cons_ne_nil _ _)]
      rfl

/-- A text without characters to drop at its end is left. -/
theorem dropEndWhile_eq_self {p : Char → Bool} (h : ∀ c ∈ cs, p c = false) : dropEndWhile p cs = cs := by
  unfold dropEndWhile
  cases hr : cs.reverse with
  | nil => rw [List.reverse_eq_nil_iff.1 hr]; rfl
  | cons c rest =>
    have hc : p c = false := h c (List.mem_reverse.1 (hr ▸ List.mem_cons_self ..))
    rw [List.dropWhile_cons_of_neg (by simp [hc]), ← hr, List.reverse_reverse]

/-! ## Runs of characters -/

/-- A run of characters that satisfy `p` ends at the first one that does not. -/
theorem takeWhile_append_of_head {p : Char → Bool} (hpiece : ∀ c ∈ piece, p c) (hrest : ∀ c ∈ rest.head?, p c = false) :
    (piece ++ rest).takeWhile p = piece := by
  have hend : rest.takeWhile p = [] := by
    cases rest with
    | nil => rfl
    | cons c rest => exact List.takeWhile_cons_of_neg (by simp [hrest c rfl])
  rw [List.takeWhile_append_of_pos hpiece, hend, List.append_nil]

/-- What follows a run of characters that satisfy `p` begins with the first one that does not. -/
theorem dropWhile_append_of_head {p : Char → Bool} (hpiece : ∀ c ∈ piece, p c) (hrest : ∀ c ∈ rest.head?, p c = false) :
    (piece ++ rest).dropWhile p = rest := by
  rw [List.dropWhile_append_of_pos hpiece]
  cases rest with
  | nil => rfl
  | cons c rest => exact List.dropWhile_cons_of_neg (by simp [hrest c rfl])

/-! ## Blanks around a text -/

/-- A text without its blanks is a part of it. -/
theorem trim_sublist (cs : List Char) : (trim cs).Sublist cs := by
  have hend : (trim cs).Sublist (trimStart cs) := (List.rdropWhile_prefix isBlank (trimStart cs)).sublist
  exact hend.trans (List.dropWhile_sublist isBlank)

/-- A text without its blanks holds nothing else. -/
theorem trim_subset (cs : List Char) : trim cs ⊆ cs := (trim_sublist cs).subset

/-- A text without its blanks does not begin with one. -/
theorem trimStart_trim (cs : List Char) : trimStart (trim cs) = trim cs := by
  refine List.dropWhile_eq_self_iff.2 fun hlt => ?_
  have hstarts : trim cs <+: trimStart cs := List.rdropWhile_prefix isBlank (trimStart cs)
  have hstart : trimStart (trimStart cs) = trimStart cs := List.dropWhile_idempotent _ _
  rw [hstarts.getElem hlt]
  exact List.dropWhile_eq_self_iff.1 hstart _

/-- Blanks are dropped once. -/
theorem trim_trim (cs : List Char) : trim (trim cs) = trim cs := by
  have hend : dropEndWhile isBlank (trim cs) = trim cs := List.rdropWhile_idempotent _ _
  rw [trim, trimStart_trim, hend]

end Treebank.Text

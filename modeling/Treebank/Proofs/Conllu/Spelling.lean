import Treebank.Proofs.Conllu.Id
import Treebank.Proofs.Text.Words

/-!
# What ids and columns are

A text is taken for an id exactly if it is a number, a span or the id of an elided token in writing (`ofText?_eq_some_iff`): numbers
have no leading zeros, but for the host of an elided token. The columns of a line are the pieces between its tabs, if these are ten, and
otherwise its pieces between runs of tabs and spaces (`columnsOf_eq`).
-/

namespace Treebank.Conllu

/-! ## Ids -/

/-- The ids in writing: `3`, `2-3` or `2.1`. -/
inductive RowId.Spelled : RowId → List Char → Prop
  | ordinary {n : Nat} (hn : 0 < n) : Spelled (.ordinary n) (Nat.toDigits 10 n)
  | span {a b : Nat} (ha : 0 < a) (hb : 0 < b) : Spelled (.span a b) (Nat.toDigits 10 a ++ '-' :: Nat.toDigits 10 b)
  | elided {host : List Char} {n : Nat} (hne : host ≠ []) (hdigits : ∀ c ∈ host, Text.isAsciiDigit c) (hn : 0 < n) :
    Spelled (.elided (Text.digitsValue host) n) (host ++ '.' :: Nat.toDigits 10 n)

/-- A number without leading zeros is read exactly from its digits. -/
theorem positive?_eq_some_iff {cs : List Char} {n : Nat} : positive? cs = some n ↔ 0 < n ∧ cs = Nat.toDigits 10 n := by
  constructor
  · intro h
    unfold positive? at h
    split at h
    · cases h
    · rename_i c rest
      split at h
      · rename_i hc
        simp only [Bool.and_eq_true, decide_eq_true_eq, List.all_eq_true] at hc
        obtain ⟨hpos, hdigits⟩ := Text.toDigits_digitsValue hc.1.1 hc.1.2 hc.2
        cases h
        exact ⟨hpos, hdigits.symm⟩
      · cases h
  · rintro ⟨hn, rfl⟩
    exact positive?_toDigits hn

/-- A number is read exactly from digits of which it is the value. -/
theorem natural?_eq_some_iff {cs : List Char} {n : Nat} :
    natural? cs = some n ↔ cs ≠ [] ∧ (∀ c ∈ cs, Text.isAsciiDigit c) ∧ Text.digitsValue cs = n := by
  unfold natural?
  by_cases hdigits : cs ≠ [] ∧ ∀ c ∈ cs, Text.isAsciiDigit c
  · rw [if_neg (by simpa using hdigits), Option.some.injEq]
    exact ⟨fun hvalue => ⟨hdigits.1, hdigits.2, hvalue⟩, fun h => h.2.2⟩
  · rw [if_pos (by simpa [Classical.not_forall, or_iff_not_imp_left] using hdigits)]
    exact iff_of_false (fun h => by cases h) fun h => hdigits ⟨h.1, h.2.1⟩

/-- Digits hold no other character. -/
theorem notMem_digits {host : List Char} (h : ∀ c ∈ host, Text.isAsciiDigit c) {c : Char} (hc : Text.isAsciiDigit c = false) :
    c ∉ host := fun hm => by
  rw [h c hm] at hc
  cases hc

/-- An id is read exactly from the texts that are it in writing. -/
theorem ofText?_eq_some_iff {text : String} {id : RowId} : RowId.ofText? text = some id ↔ id.Spelled text.toList := by
  constructor
  · intro h
    unfold RowId.ofText? at h
    simp only at h
    split at h
    · rename_i a b hdash
      obtain ⟨hcs, -⟩ := Text.of_splitFirst?_eq_some hdash
      simp only [Option.bind_eq_bind, Option.bind_eq_some_iff] at h
      obtain ⟨start, hstart, stop, hstop, hid⟩ := h
      obtain ⟨hpos, rfl⟩ := positive?_eq_some_iff.1 hstart
      obtain ⟨hpos', rfl⟩ := positive?_eq_some_iff.1 hstop
      obtain rfl := Option.some.inj hid
      rw [hcs]
      exact .span hpos hpos'
    · rename_i a b hdash hpoint
      obtain ⟨hcs, -⟩ := Text.of_splitFirst?_eq_some hpoint
      simp only [Option.bind_eq_bind, Option.bind_eq_some_iff] at h
      obtain ⟨host, hhost, n, hn, hid⟩ := h
      obtain ⟨hne, hdigits, rfl⟩ := natural?_eq_some_iff.1 hhost
      obtain ⟨hpos, rfl⟩ := positive?_eq_some_iff.1 hn
      obtain rfl := Option.some.inj hid
      rw [hcs]
      exact .elided hne hdigits hpos
    · obtain ⟨n, hn, rfl⟩ := Option.map_eq_some_iff.1 h
      obtain ⟨hpos, hcs⟩ := positive?_eq_some_iff.1 hn
      rw [hcs]
      exact .ordinary hpos
  · intro h
    have hdash : ∀ n, '-' ∉ Nat.toDigits 10 n := notMem_toDigits (by decide)
    have hpoint : ∀ n, '.' ∉ Nat.toDigits 10 n := notMem_toDigits (by decide)
    unfold RowId.ofText?
    generalize text.toList = cs at h
    cases h with
    | @ordinary n hn =>
      simp only [Text.splitFirst?_eq_none_iff.2 (hdash n), Text.splitFirst?_eq_none_iff.2 (hpoint n), positive?_toDigits hn,
        Option.map_some]
    | @span a b ha hb =>
      simp only [Text.splitFirst?_append (hdash a), positive?_toDigits ha, positive?_toDigits hb]
      rfl
    | @elided host n hne hdigits hn =>
      have hnone : '-' ∉ host ++ '.' :: Nat.toDigits 10 n := by simp [hdash, notMem_digits hdigits (c := '-') (by decide)]
      have hhost : natural? host = some (Text.digitsValue host) := natural?_eq_some_iff.2 ⟨hne, hdigits, rfl⟩
      simp only [Text.splitFirst?_eq_none_iff.2 hnone, Text.splitFirst?_append (notMem_digits hdigits (c := '.') (by decide)), hhost,
        positive?_toDigits hn]
      rfl

/-! ## Columns -/

/-- Whether a character stands between columns where they are not separated by single tabs. -/
def isGap (c : Char) : Bool := c = '\t' || c = ' '

/-- A gap before other columns is passed over up to its last character. -/
theorem looseColumns_gap {c d : Char} {cs : List Char} (hc : isGap c) :
    looseColumns (c :: d :: cs) = if isGap d then looseColumns (d :: cs) else [] :: looseColumns (d :: cs) := by
  rw [looseColumns]
  exact if_pos hc

/-- A character that is no gap belongs to the first column. -/
theorem looseColumns_other {c : Char} {cs column : List Char} {columns : List (List Char)} (hc : isGap c = false)
    (h : looseColumns cs = column :: columns) : looseColumns (c :: cs) = (c :: column) :: columns := by
  rw [looseColumns.eq_def]
  refine (if_neg (by rw [← Bool.not_eq_true] at hc; exact hc)).trans ?_
  rw [h]

/-- Behind the first piece, the columns between runs of tabs and spaces are the pieces that are not empty. -/
theorem looseColumns_eq_cons {cs : List Char} (hlast : ∀ c ∈ cs.getLast?, isGap c = false) :
    ∃ piece pieces, cs.splitOnP isGap = piece :: pieces ∧ looseColumns cs = piece :: pieces.filter (· ≠ []) := by
  induction cs with
  | nil => exact ⟨[], [], rfl, rfl⟩
  | cons c cs ih =>
    have hsplit := List.splitOnP_cons_eq_if_modifyHead (p := isGap) c cs
    cases cs with
    | nil =>
      have hc : isGap c = false := hlast c rfl
      exact ⟨[c], [], by rw [hsplit, hc]; rfl, looseColumns_other hc rfl⟩
    | cons d cs =>
      obtain ⟨piece, pieces, hpieces, hcolumns⟩ := ih (by simpa using hlast)
      rw [hpieces] at hsplit
      cases hc : isGap c with
      | false => exact ⟨c :: piece, pieces, by rw [hsplit, hc]; rfl, looseColumns_other hc hcolumns⟩
      | true =>
        refine ⟨[], piece :: pieces, by rw [hsplit, hc]; rfl, ?_⟩
        have hnext := List.splitOnP_cons_eq_if_modifyHead (p := isGap) d cs
        rw [hpieces] at hnext
        rw [looseColumns_gap hc, hcolumns]
        -- The piece between two gap characters is empty, and any other is not.
        cases hd : isGap d with
        | true =>
          rw [hd, if_pos rfl] at hnext
          obtain ⟨rfl, rfl⟩ := List.cons.inj hnext
          simp
        | false =>
          have hne : piece ≠ [] := by
            rw [hd, if_neg Bool.false_ne_true] at hnext
            obtain ⟨first, rest, hrest⟩ := List.exists_cons_of_ne_nil (List.splitOnP_ne_nil isGap cs)
            rw [hrest, List.modifyHead_cons] at hnext
            rw [(List.cons.inj hnext).1]
            exact List.cons_ne_nil d first
          simp [hne]

/-- The columns of a text that neither begins nor ends with a gap are its pieces between gap characters that are not empty. -/
theorem looseColumns_eq {cs : List Char} (hne : cs ≠ []) (hfirst : ∀ c ∈ cs.head?, isGap c = false)
    (hlast : ∀ c ∈ cs.getLast?, isGap c = false) : looseColumns cs = (cs.splitOnP isGap).filter (· ≠ []) := by
  obtain ⟨piece, pieces, hpieces, hcolumns⟩ := looseColumns_eq_cons hlast
  obtain ⟨c, cs, rfl⟩ := List.exists_cons_of_ne_nil hne
  have hpiece : piece ≠ [] := by
    rw [List.splitOnP_cons_eq_if_modifyHead, hfirst c rfl, if_neg Bool.false_ne_true] at hpieces
    obtain ⟨first, rest, hrest⟩ := List.exists_cons_of_ne_nil (List.splitOnP_ne_nil isGap cs)
    rw [hrest, List.modifyHead_cons] at hpieces
    rw [← (List.cons.inj hpieces).1]
    exact List.cons_ne_nil c first
  rw [hcolumns, hpieces]
  simp [hpiece]

/-- The columns of a line that is not blank are the pieces between its tabs, if these are ten, and otherwise what stands between tabs and
spaces in the line without the blanks around it. -/
theorem columnsOf_eq {line : List Char} (h : Text.isAllBlank line = false) :
    columnsOf line =
      (if (line.splitOn '\t').length = columnCount then line.splitOn '\t'
        else ((Text.trim line).splitOnP isGap).filter (· ≠ [])).map String.ofList := by
  have hgap : ∀ c, Text.isBlank c = false → isGap c = false := by
    intro c hc
    simp only [isGap, Bool.or_eq_false_iff, decide_eq_false_iff_not]
    refine ⟨fun e => ?_, fun e => ?_⟩
    · rw [e] at hc
      exact absurd hc (by decide)
    · rw [e] at hc
      exact absurd hc (by decide)
  have htrim := Text.isTrimmed_trim line
  have hne : Text.trim line ≠ [] := fun e => by rw [Text.trim_eq_nil_iff.1 e] at h; cases h
  rw [columnsOf, Text.splitOn_eq, looseColumns_eq hne (fun c hc => hgap c (htrim.first c hc)) fun c hc => hgap c (htrim.last c hc)]

end Treebank.Conllu

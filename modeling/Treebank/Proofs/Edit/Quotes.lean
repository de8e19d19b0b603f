import Treebank.Proofs.Edit.Line
import Mathlib.Algebra.Order.BigOperators.Group.List

/-!
# Quotes in a line

An argument that holds a blank, or nothing, can stand in quotes only. So it costs a line two quotes, and any argument costs the line the
quotes that it holds: the arguments that are read from a line cost no more than the quotes of the line (`total_readFlags`,
`sum_cost_cutArguments`).
-/

namespace Treebank.Edit

open Text

/-- What an argument costs a line: the quotes that it holds, and two more if it can stand in quotes only. -/
def cost (cs : List Char) : Nat := cs.count '"' + if cs.isEmpty || cs.any isBlank then 2 else 0

/-- An argument that can stand without quotes costs those that it holds. -/
theorem cost_eq_count {cs : List Char} (hne : cs ≠ []) (h : ∀ c ∈ cs, isBlank c = false) : cost cs = cs.count '"' := by
  have hcan : (cs.isEmpty || cs.any isBlank) = false := by
    rw [Bool.or_eq_false_iff, List.isEmpty_eq_false_iff, List.any_eq_false]
    exact ⟨hne, fun c hc => by simp [h c hc]⟩
  rw [cost, hcan]
  rfl

/-- An argument that can stand in quotes only costs two more than it holds. -/
theorem count_add_two_le_cost {cs : List Char} (h : cs = [] ∨ ∃ c ∈ cs, isBlank c = true) : cs.count '"' + 2 ≤ cost cs := by
  have honly : (cs.isEmpty || cs.any isBlank) = true := by
    rw [Bool.or_eq_true, List.isEmpty_iff, List.any_eq_true]
    exact h
  rw [cost, if_pos honly]

/-- No argument costs more than two beyond the quotes that it holds. -/
theorem cost_le (cs : List Char) : cs.count '"' ≤ cost cs ∧ cost cs ≤ cs.count '"' + 2 := by
  unfold cost
  split <;> omega

/-- The arguments of a text cost no more than its quotes. -/
theorem sum_cost_cutArguments (cs : List Char) : ((cutArguments cs).map cost).sum ≤ cs.count '"' := by
  have hrun : ∀ {c : Char} {rest : List Char}, isBlank c = false →
      cost (c :: rest.takeWhile (!isBlank ·)) + (rest.dropWhile (!isBlank ·)).count '"' = (c :: rest).count '"' := by
    intro c rest hc
    have hfilled : ∀ d ∈ c :: rest.takeWhile (!isBlank ·), isBlank d = false :=
      List.forall_mem_cons.2 ⟨hc, fun d hd => by simpa using List.mem_takeWhile_imp (p := (!isBlank ·)) hd⟩
    rw [cost_eq_count (List.cons_ne_nil _ _) hfilled, ← List.count_append, List.cons_append, List.takeWhile_append_dropWhile]
  fun_induction cutArguments cs with
  | case1 => exact Nat.le_refl _
  | case2 rest quoted after hsplit hlength ih =>
    obtain ⟨rfl, hnone⟩ := of_splitFirst?_eq_some hsplit
    have hcost := (cost_le quoted).2
    rw [List.count_eq_zero.2 hnone] at hcost
    simp only [List.map_cons, List.sum_cons, List.count_cons_self, List.count_append]
    omega
  | case3 rest hsplit ih =>
    rw [List.map_cons, List.sum_cons, ← hrun (by decide)]
    omega
  | case4 c rest hquote hblank ih => exact ih.trans (List.count_le_count_cons ..)
  | case5 c rest hquote hblank ih =>
    rw [List.map_cons, List.sum_cons, ← hrun (by simpa using hblank)]
    omega

/-- What stands in a line costs no more than the quotes of its text. -/
theorem Stands.cost_le {text arg : String} (h : Stands text arg) : cost arg.toList ≤ text.toList.count '"' := by
  cases h with
  | run hrun _ => exact (cost_eq_count hrun.isTrimmed.1 hrun.2).le
  | quoted _ =>
    rw [toList_quoted, List.count_cons_self, List.count_append, List.count_singleton_self]
    exact (Edit.cost_le arg.toList).2

/-! ## Arguments that are read -/

/-- What the values of arguments cost. -/
def total (args : Arguments) : Nat := (args.map fun argument => cost argument.2.toList).sum

/-- A value that is set costs what it costs. -/
theorem total_put_le {read : Arguments} (hread : (Pairs.keys read).Nodup) (flag value : String) :
    total (Pairs.put read flag value) ≤ total read + cost value.toList := Pairs.sum_put_le _ hread flag value

/-- The arguments that are read cost no more than those of the line, together with those read before. -/
theorem total_readFlags {line : String} {read args : Arguments} {tokens : List String} (h : readFlags line read tokens = .ok args)
    (hread : (Pairs.keys read).Nodup) :
    (Pairs.keys args).Nodup ∧ total args ≤ total read + (tokens.map fun token => cost token.toList).sum := by
  fun_induction readFlags line read tokens with
  | case1 read =>
    cases h
    exact ⟨hread, Nat.le_refl _⟩
  | case2 read flag => cases h
  | case3 read flag value rest hflag ih =>
    obtain ⟨hkeys, hle⟩ := ih h (Pairs.nodup_keys_put hread flag value)
    have hput := total_put_le hread flag value
    simp only [List.map_cons, List.sum_cons]
    exact ⟨hkeys, by omega⟩
  | case4 read flag value rest hflag => cases h

/-- The arguments that are read from a text cost no more than its quotes. -/
theorem total_le_count {line : String} {args : Arguments} {rest : List Char}
    (h : readFlags line [] ((cutArguments rest).map String.ofList) = .ok args) : total args ≤ rest.count '"' := by
  have hle := (total_readFlags h List.nodup_nil).2
  have hcut : ((cutArguments rest).map fun arg => cost arg).sum ≤ rest.count '"' := sum_cost_cutArguments rest
  have hnil : total [] = 0 := rfl
  rw [List.map_map] at hle
  simp only [Function.comp_def, String.toList_ofList] at hle
  omega

/-- A value that was read stays, or what it costs is lost. -/
theorem lookup_or_total_readFlags {line : String} {read args : Arguments} {tokens : List String} {name value : String}
    (h : readFlags line read tokens = .ok args) (hread : (Pairs.keys read).Nodup) (hlookup : read.lookup name = some value) :
    args.lookup name = some value ∨
      total args + cost value.toList ≤ total read + (tokens.map fun token => cost token.toList).sum := by
  fun_induction readFlags line read tokens with
  | case1 read =>
    cases h
    exact .inl hlookup
  | case2 read flag => cases h
  | case3 read flag next rest hflag ih =>
    have hkeys := Pairs.nodup_keys_put hread flag next
    simp only [List.map_cons, List.sum_cons]
    by_cases hname : name = flag
    · subst hname
      have hput : total (Pairs.put read name next) + cost value.toList = total read + cost next.toList :=
        Pairs.sum_put_of_lookup _ hread hlookup next
      have hle := (total_readFlags h hkeys).2
      exact .inr (by omega)
    · have hput := total_put_le hread flag next
      refine (ih h hkeys ?_).imp_right fun hle => by omega
      rw [Pairs.lookup_put, if_neg (by simpa using hname)]
      exact hlookup
  | case4 read flag next rest hflag => cases h

/-- Values that cost no more than those under their flags cost no more in sum. -/
theorem sum_cost_le_total {stated args : Arguments} (hkeys : (Pairs.keys stated).Nodup)
    (h : ∀ argument ∈ stated, ∃ text, args.lookup argument.1 = some text ∧ cost argument.2.toList ≤ cost text.toList) :
    (stated.map fun argument => cost argument.2.toList).sum ≤ total args := by
  -- The arguments under the flags that are stated, of which no two have one flag.
  obtain ⟨found, hfound⟩ : ∃ found : Arguments, found = stated.map fun argument => (argument.1, (args.lookup argument.1).getD "") :=
    ⟨_, rfl⟩
  have hsubset : found ⊆ args := by
    intro argument hmem
    rw [hfound] at hmem
    obtain ⟨said, hsaid, rfl⟩ := List.mem_map.1 hmem
    obtain ⟨text, hlookup, -⟩ := h said hsaid
    rw [hlookup]
    exact Pairs.mem_of_lookup_eq hlookup
  have hnodup : found.Nodup := by
    refine List.Nodup.of_map Prod.fst ?_
    rw [hfound, List.map_map]
    exact hkeys
  obtain ⟨part, hperm, hpart⟩ := List.subperm_of_subset hnodup hsubset
  calc (stated.map fun argument => cost argument.2.toList).sum
      ≤ (found.map fun argument => cost argument.2.toList).sum := by
        rw [hfound, List.map_map]
        refine List.sum_le_sum fun argument hmem => ?_
        obtain ⟨text, hlookup, hle⟩ := h argument hmem
        simpa [hlookup] using hle
    _ = (part.map fun argument => cost argument.2.toList).sum := (hperm.map _).sum_eq.symm
    _ ≤ total args := (hpart.map _).sum_le_sum fun _ _ => Nat.zero_le _

/-! ## Arguments in their line -/

variable {arguments read args : Arguments}

/-- A text that begins with its only quote is cut off with what follows up to the next quote, a blank between them. -/
theorem cutArguments_opens {text : String} {texts : List String} (h : Opens text)
    (hmem : '"' ∈ [' '].intercalate (texts.map String.toList)) :
    ∃ arg after, cutArguments ([' '].intercalate ((text :: texts).map String.toList)) = arg :: cutArguments after ∧ ' ' ∈ arg ∧
      ([' '].intercalate (texts.map String.toList)).count '"' = after.count '"' + 1 := by
  obtain ⟨body, hbody⟩ := List.head?_eq_some_iff.1 h.1
  have hnone : '"' ∉ body := by
    have hone := h.2
    rwa [hbody, List.count_cons_self, Nat.add_eq_right, List.count_eq_zero] at hone
  have hsome : texts.map String.toList ≠ [] := by
    intro hnil
    rw [hnil] at hmem
    cases hmem
  rw [List.map_cons, intercalate_cons, if_neg hsome]
  generalize [' '].intercalate (texts.map String.toList) = rest at hmem
  cases hsplit : splitFirst? '"' rest with
  | none => exact absurd hmem (splitFirst?_eq_none_iff.1 hsplit)
  | some parts =>
    obtain ⟨before, after⟩ := parts
    obtain ⟨rfl, hbefore⟩ := of_splitFirst?_eq_some hsplit
    have hjoined : text.toList ++ ' ' :: (before ++ '"' :: after) = '"' :: ((body ++ ' ' :: before) ++ '"' :: after) := by simp [hbody]
    have hquoted : '"' ∉ body ++ ' ' :: before := by simp [hnone, hbefore]
    refine ⟨body ++ ' ' :: before, after, ?_, by simp, ?_⟩
    · rw [hjoined, cutArguments_quoted hquoted]
    · rw [List.count_append, List.count_cons_self, List.count_eq_zero.2 hbefore, Nat.zero_add]

/-- If a quote follows an argument that begins with its only quote, a value with a blank is read under its flag, unless it is lost with
what it costs. -/
theorem late_or_total {line : String} (hflags : ∀ name ∈ Pairs.keys arguments, name ∈ flags)
    (hstands : ∀ argument ∈ arguments, Stands (printed argument) argument.2) (hread : (Pairs.keys read).Nodup)
    (h : readFlags line read ((cutArguments ([' '].intercalate
      ((arguments.flatMap fun argument => [argument.1, printed argument]).map String.toList))).map String.ofList) = .ok args) :
    ((arguments.flatMap fun argument => [argument.1, printed argument]).Pairwise fun s t => Opens s → '"' ∉ t.toList) ∨
      (∃ argument ∈ arguments, Opens (printed argument) ∧ ∃ text, args.lookup argument.1 = some text ∧ ' ' ∈ text.toList) ∨
      total args + 2 ≤ total read + (arguments.map fun argument => (printed argument).toList.count '"').sum := by
  induction arguments generalizing read with
  | nil => exact .inl List.Pairwise.nil
  | cons argument arguments ih =>
    obtain ⟨hflag, hflags'⟩ : argument.1 ∈ flags ∧ ∀ name ∈ Pairs.keys arguments, name ∈ flags :=
      List.forall_mem_cons.1 hflags
    obtain ⟨hfirst, hstands'⟩ := List.forall_mem_cons.1 hstands
    have hquotes := count_quote_texts hflags'
    have hword := Written.word (isWord_of_mem_flags hflag)
    simp only [List.flatMap_cons, List.cons_append, List.nil_append] at h ⊢
    generalize (arguments.flatMap fun argument => [argument.1, printed argument]) = texts at h ih hquotes ⊢
    rw [hword.stands.cut_first fun hopens => absurd hopens hword.not_opens, List.map_cons, String.ofList_toList] at h
    rw [List.map_cons, List.sum_cons]
    by_cases hbad : Opens (printed argument) ∧ '"' ∈ [' '].intercalate (texts.map String.toList)
    · -- The value that is read under the flag runs on to the next quote.
      obtain ⟨hopens, hmem⟩ := hbad
      obtain ⟨arg, after, hvalue, hspaced, hcount⟩ := cutArguments_opens hopens hmem
      rw [hvalue, List.map_cons, readFlags, if_pos (List.contains_iff_mem.2 hflag)] at h
      have hput := total_put_le hread argument.1 (String.ofList arg)
      have hkeys := Pairs.nodup_keys_put hread argument.1 (String.ofList arg)
      have hset : (Pairs.put read argument.1 (String.ofList arg)).lookup argument.1 = some (String.ofList arg) := by
        rw [Pairs.lookup_put, if_pos (beq_self_eq_true _)]
      rcases lookup_or_total_readFlags h hkeys hset with hlookup | hle
      · exact .inr (.inl ⟨argument, List.mem_cons_self .., hopens, _, hlookup, by simpa using hspaced⟩)
      · have hrest : ((cutArguments after).map fun arg => cost arg).sum ≤ after.count '"' := sum_cost_cutArguments after
        rw [List.map_map] at hle
        simp only [Function.comp_def, String.toList_ofList] at hle hput
        have hone := hopens.2
        exact .inr (.inr (by omega))
    · have hlate : Opens (printed argument) → '"' ∉ [' '].intercalate (texts.map String.toList) := not_and.1 hbad
      rw [hfirst.cut_first hlate, List.map_cons, String.ofList_toList, readFlags, if_pos (List.contains_iff_mem.2 hflag)] at h
      have hput := total_put_le hread argument.1 argument.2
      have hcost := hfirst.cost_le
      rcases ih hflags' hstands' (Pairs.nodup_keys_put hread _ _) h with hpairs | ⟨next, hnext, hfound⟩ | hle
      · refine .inl (List.pairwise_cons.2 ⟨fun _ _ hopens => absurd hopens hword.not_opens, List.pairwise_cons.2 ⟨?_, hpairs⟩⟩)
        intro text htext hopens
        exact (notMem_intercalate_iff (by decide)).1 (hlate hopens) _ (List.mem_map_of_mem htext)
      · exact .inr (.inl ⟨next, List.mem_cons_of_mem _ hnext, hfound⟩)
      · exact .inr (.inr (by omega))

end Treebank.Edit

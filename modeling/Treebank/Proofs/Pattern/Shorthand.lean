import Treebank.Pattern.Batch
import Treebank.Proofs.Except
import Treebank.Proofs.Pairs
import Treebank.Proofs.Text.Pieces

/-!
# Shorthands put in

A text is looked through once, from the left: where it uses a shorthand, the value is put in and the text goes on behind the use
(`substitute_eq_ok_iff`). What was put in is not looked through again, so a use can come together out of the end of what stands before
a use and the beginning of a value. That takes a use that was begun and not finished, directly before another one or at the end of a
value: without those, no use is left (`not_hasUse_of_expands`).
-/

namespace Treebank.Pattern

variable {table : Shorthands} {name after cs out w more : List Char}

/-! ## Uses -/

/-- The names that a shorthand can have. -/
def IsShorthandName : List Char → Prop
  | [] => False
  | c :: rest => (isLetter c || c = '_') = true ∧ ∀ d ∈ rest, isNameChar d = true

/-- The use of a shorthand. -/
def useOf (name : List Char) : List Char := '$' :: '\x7b' :: (name ++ ['\x7d'])

/-- A use of the shorthand stands somewhere in the text. -/
def Uses (name cs : List Char) : Prop := ∃ before after, cs = before ++ useOf name ++ after

/-- A use of a shorthand, whether it is defined or not, stands somewhere in the text. -/
def HasUse (cs : List Char) : Prop := ∃ name, IsShorthandName name ∧ Uses name cs

/-- The text is what comes behind the dollar sign of a use, as far as it goes, and does not finish the use. -/
def Begun (w : List Char) : Prop := ∃ name more, IsShorthandName name ∧ more ≠ [] ∧ '$' :: (w ++ more) = useOf name

/-- The text ends in a use that is begun and not finished. -/
def Unfinished (cs : List Char) : Prop := ∃ before w, Begun w ∧ cs = before ++ '$' :: w

/-- Somewhere in the text, a use that is begun and not finished stands directly before another use. -/
def Joins (cs : List Char) : Prop := ∃ before name after, Unfinished before ∧ IsShorthandName name ∧ cs = before ++ useOf name ++ after

/-- An identifier is as long as it can be. -/
theorem identifier?_eq_some_iff : identifier? cs = some (name, after) ↔
    IsShorthandName name ∧ cs = name ++ after ∧ ∀ c ∈ after.head?, isNameChar c = false := by
  cases cs with
  | nil =>
    simp only [identifier?, reduceCtorEq, false_iff, not_and]
    rintro hname hcs
    rw [(List.append_eq_nil_iff.1 hcs.symm).1] at hname
    exact hname.elim
  | cons c rest =>
    simp only [identifier?]
    constructor
    · intro h
      split at h
      · rename_i hc
        cases h
        refine ⟨⟨hc, fun d hd => List.mem_takeWhile_imp hd⟩, ?_, fun d hd => ?_⟩
        · rw [List.cons_append, List.takeWhile_append_dropWhile]
        · have hhead := List.head?_dropWhile_not isNameChar rest
          rw [hd] at hhead
          simpa using hhead
      · cases h
    · rintro ⟨hname, hcs, hafter⟩
      cases name with
      | nil => exact hname.elim
      | cons d name =>
        rw [List.cons_append] at hcs
        obtain ⟨rfl, rfl⟩ := List.cons.inj hcs
        rw [if_pos hname.1, Text.takeWhile_append_of_head hname.2 hafter, Text.dropWhile_append_of_head hname.2 hafter]

/-- A text begins with a use exactly if it is the use and what follows. -/
theorem use?_eq_some_iff : use? cs = some (name, after) ↔ IsShorthandName name ∧ cs = useOf name ++ after := by
  constructor
  · intro h
    unfold use? at h
    split at h
    · split at h
      · rename_i hname
        cases h
        obtain ⟨hletters, rfl, -⟩ := identifier?_eq_some_iff.1 hname
        exact ⟨hletters, by simp [useOf]⟩
      · cases h
    · cases h
  · rintro ⟨hname, rfl⟩
    have hidentifier : identifier? (name ++ '\x7d' :: after) = some (name, '\x7d' :: after) :=
      identifier?_eq_some_iff.2 ⟨hname, rfl, fun c hc => by cases hc; decide⟩
    have htext : useOf name ++ after = '$' :: '\x7b' :: (name ++ '\x7d' :: after) := by simp [useOf]
    simp only [htext, use?, hidentifier]

/-- The use at the beginning of a text is found. -/
theorem use?_useOf_append (hname : IsShorthandName name) (after : List Char) : use? (useOf name ++ after) = some (name, after) :=
  use?_eq_some_iff.2 ⟨hname, rfl⟩

/-- A text that begins with a use goes on behind it with less. -/
theorem length_lt_of_use? (h : use? cs = some (name, after)) : after.length < cs.length := by
  obtain ⟨-, rfl⟩ := use?_eq_some_iff.1 h
  simp [useOf]
  omega

/-- Behind its dollar sign, a use has no other. -/
theorem dollar_notMem (hname : IsShorthandName name) : '$' ∉ '\x7b' :: (name ++ ['\x7d']) := by
  cases name with
  | nil => exact hname.elim
  | cons c rest =>
    have hc : '$' ≠ c := by
      rintro rfl
      exact absurd hname.1 (by decide)
    have hrest : '$' ∉ rest := fun h => absurd (hname.2 _ h) (by decide)
    simp [hc, hrest]

/-- A text without a dollar sign has no use. -/
theorem not_hasUse_of_notMem (h : '$' ∉ cs) : ¬ HasUse cs := by
  rintro ⟨name, -, before, after, rfl⟩
  exact h (by simp [useOf])

/-- Where a use is cut in two, the first part is empty, all of it, or begun and not finished. -/
theorem of_useOf_append {front back : List Char} (hname : IsShorthandName name) (h : useOf name ++ after = front ++ back) :
    front = [] ∨ useOf name <+: front ∨ ∃ w, front = '$' :: w ∧ Begun w := by
  rcases List.append_eq_append_iff.1 h with ⟨rest, hfront, -⟩ | ⟨more, huse, -⟩
  · exact .inr (.inl ⟨rest, hfront.symm⟩)
  · cases front with
    | nil => exact .inl rfl
    | cons c w =>
      obtain ⟨rfl, -⟩ := List.cons.inj huse
      by_cases hmore : more = []
      · rw [hmore, List.append_nil] at huse
        exact .inr (.inl (huse ▸ List.prefix_rfl))
      · exact .inr (.inr ⟨w, rfl, name, more, hname, hmore, huse.symm⟩)

/-- A use in two texts, one behind the other, stands in one of them, or begins in the first and goes on in the second. -/
theorem HasUse.of_append {front back : List Char} (h : HasUse (front ++ back)) : HasUse front ∨ HasUse back ∨ Unfinished front := by
  obtain ⟨name, hname, before, after, h⟩ := h
  rw [List.append_assoc] at h
  rcases List.append_eq_append_iff.1 h with ⟨rest, hbefore, hback⟩ | ⟨kept, hfront, hkept⟩
  · exact .inr (.inl ⟨name, hname, rest, after, by rw [hback, List.append_assoc]⟩)
  · rcases of_useOf_append hname hkept with rfl | ⟨rest, rfl⟩ | ⟨w, rfl, hw⟩
    · exact .inr (.inl ⟨name, hname, [], after, hkept.symm⟩)
    · exact .inl ⟨name, hname, before, rest, by rw [hfront, List.append_assoc]⟩
    · exact .inr (.inr ⟨before, w, hw, hfront⟩)

/-- What is begun and not finished is so from the beginning on. -/
theorem Begun.of_append (h : Begun (w ++ more)) : Begun w := by
  obtain ⟨name, rest, hname, hrest, h⟩ := h
  exact ⟨name, more ++ rest, hname, by simp [hrest], by rw [← h, List.append_assoc]⟩

/-- A use that is begun in two texts, one behind the other, is so in the second one or at the end of the first one. -/
theorem Unfinished.of_append {front back : List Char} (h : Unfinished (front ++ back)) : Unfinished back ∨ Unfinished front := by
  obtain ⟨before, w, hw, h⟩ := h
  rcases List.append_eq_append_iff.1 h with ⟨rest, -, hback⟩ | ⟨kept, hfront, hkept⟩
  · exact .inl ⟨rest, w, hw, hback⟩
  · cases kept with
    | nil => exact .inl ⟨[], w, hw, hkept.symm⟩
    | cons c kept =>
      obtain ⟨rfl, rfl⟩ := List.cons.inj hkept
      exact .inr ⟨before, kept, hw.of_append, hfront⟩

/-- What is unfinished at the end of a text is so behind others. -/
theorem Unfinished.append (h : Unfinished cs) (front : List Char) : Unfinished (front ++ cs) := by
  obtain ⟨before, w, hw, rfl⟩ := h
  exact ⟨front ++ before, w, hw, by rw [List.append_assoc]⟩

/-- What stands before a use in a text does so behind others. -/
theorem Joins.append (h : Joins cs) (front : List Char) : Joins (front ++ cs) := by
  obtain ⟨before, name, after, hbefore, hname, rfl⟩ := h
  exact ⟨front ++ before, name, after, hbefore.append front, hname, by simp only [List.append_assoc]⟩

/-! ## Values put in -/

/-- What comes of a text when every use in it, from the left, makes place for the value of its shorthand. -/
inductive Expands (table : Shorthands) : List Char → List Char → Prop
  | nil : Expands table [] []
  | use {name after out : List Char} {value : String} (hname : IsShorthandName name) (hvalue : table.lookup (String.ofList name) = some value)
      (hafter : Expands table after out) : Expands table (useOf name ++ after) (value.toList ++ out)
  | char {c : Char} {rest out : List Char} (huse : use? (c :: rest) = none) (hrest : Expands table rest out) :
      Expands table (c :: rest) (c :: out)

/-- Putting in the values of shorthands succeeds exactly if each use has a value, and comes to that text. -/
theorem substitute_eq_ok_iff {i : Input} {line : Nat} : substitute i line table cs = .ok out ↔ Expands table cs out := by
  constructor
  · intro h
    induction hlen : cs.length using Nat.strong_induction_on generalizing cs out with
    | _ n ih =>
      rw [substitute.eq_def] at h
      split at h
      · rename_i name after huse
        split at h
        · cases h
        · rename_i value hvalue
          have hshort := length_lt_of_use? huse
          rw [if_pos hshort] at h
          obtain ⟨out, hout, h⟩ := bind_eq_ok_iff.1 h
          cases h
          obtain ⟨hname, rfl⟩ := use?_eq_some_iff.1 huse
          exact .use hname hvalue (ih _ (hlen ▸ hshort) hout rfl)
      · rename_i huse
        split at h
        · cases h
          exact .nil
        · obtain ⟨out, hout, h⟩ := bind_eq_ok_iff.1 h
          cases h
          exact .char huse (ih _ (hlen ▸ Nat.lt_succ_self _) hout rfl)
  · intro h
    induction h with
    | nil =>
      rw [substitute.eq_def]
      rfl
    | @use name after out value hname hvalue _ ih =>
      have huse := use?_useOf_append hname after
      rw [substitute.eq_def, huse]
      simp only [hvalue, if_pos (length_lt_of_use? huse), ih, bind_ok]
      rfl
    | char huse _ ih =>
      rw [substitute.eq_def, huse]
      simp only [ih, bind_ok]
      rfl

namespace Expands

/-- Every use in the text has a value. -/
theorem defined (h : Expands table cs out) (hname : IsShorthandName name) (huses : Uses name cs) :
    ∃ value, table.lookup (String.ofList name) = some value := by
  obtain ⟨before, after, hcs⟩ := huses
  rw [List.append_assoc] at hcs
  induction h generalizing before with
  | nil => simp [useOf] at hcs
  | @use name' after' out value hname' hvalue _ ih =>
    cases before with
    | nil =>
      have huse := use?_useOf_append hname' after'
      rw [hcs, List.nil_append, use?_useOf_append hname] at huse
      cases huse
      exact ⟨value, hvalue⟩
    | cons c before =>
      -- The dollar sign of the other use stands behind this one.
      obtain ⟨-, hbehind⟩ := List.cons.inj hcs
      rcases List.append_eq_append_iff.1 hbehind with ⟨skipped, -, hafter⟩ | ⟨kept, hkept, hrest⟩
      · exact ih skipped hafter
      · cases kept with
        | nil => exact ih [] hrest.symm
        | cons c kept =>
          obtain ⟨rfl, -⟩ := List.cons.inj hrest
          exact absurd (hkept ▸ by simp) (dollar_notMem hname')
  | @char c rest out huse _ ih =>
    cases before with
    | nil =>
      rw [hcs, List.nil_append, use?_useOf_append hname] at huse
      cases huse
    | cons c before => exact ih before (List.cons.inj hcs).2

/-- Without definitions, the texts that can be expanded are those without a use, and they stay as they are. -/
theorem nil_iff : Expands [] cs out ↔ ¬ HasUse cs ∧ out = cs := by
  constructor
  · intro h
    refine ⟨fun ⟨name, hname, huses⟩ => ?_, ?_⟩
    · obtain ⟨value, hvalue⟩ := h.defined hname huses
      cases hvalue
    · induction h with
      | nil => rfl
      | use _ hvalue => cases hvalue
      | char _ _ ih => rw [ih]
  · rintro ⟨hnone, rfl⟩
    induction out with
    | nil => exact .nil
    | cons c rest ih =>
      refine .char (Option.eq_none_iff_forall_ne_some.2 fun (name, after) huse => ?_) (ih fun ⟨name, hname, before, after, h⟩ => ?_)
      · obtain ⟨hname, h⟩ := use?_eq_some_iff.1 huse
        exact hnone ⟨name, hname, [], after, h⟩
      · exact hnone ⟨name, hname, c :: before, after, by rw [h]; rfl⟩

/-- A character of the outcome stands in the text or in a value. -/
theorem of_mem (h : Expands table cs out) {c : Char} (hc : c ∈ out) : c ∈ cs ∨ ∃ p ∈ table, c ∈ p.2.toList := by
  induction h with
  | nil => cases hc
  | use _ hvalue _ ih =>
    rcases List.mem_append.1 hc with hc | hc
    · exact .inr ⟨_, Pairs.mem_of_lookup_eq hvalue, hc⟩
    · exact (ih hc).imp_left (List.mem_append_right _)
  | char _ _ ih =>
    rcases List.mem_cons.1 hc with rfl | hc
    · exact .inl (List.mem_cons_self ..)
    · exact (ih hc).imp_left (List.mem_cons_of_mem _)

/-- The beginning of an outcome stands in the text, unless a use comes before its end. -/
theorem of_append {tail : List Char} (h : Expands table cs (w ++ tail)) :
    (∃ rest, cs = w ++ rest ∧ Expands table rest tail) ∨
      ∃ front name after, front <+: w ∧ IsShorthandName name ∧ cs = front ++ useOf name ++ after := by
  induction w generalizing cs with
  | nil => exact .inl ⟨cs, rfl, h⟩
  | cons c w ih =>
    generalize hout : c :: w ++ tail = out at h
    cases h with
    | nil => cases hout
    | use hname => exact .inr ⟨[], _, _, List.nil_prefix, hname, rfl⟩
    | char _ hrest =>
      obtain ⟨rfl, rfl⟩ := List.cons.inj hout
      rcases ih hrest with ⟨rest, rfl, h⟩ | ⟨front, name, after, hfront, hname, rfl⟩
      · exact .inl ⟨rest, rfl, h⟩
      · exact .inr ⟨_ :: front, name, after, List.prefix_cons_inj _ |>.2 hfront, hname, rfl⟩

/-- No use comes together where nothing that is begun stands before a use in the text or at the end of a value. -/
theorem not_hasUse (h : Expands table cs out) (hvalues : ∀ p ∈ table, ¬ HasUse p.2.toList ∧ ¬ Unfinished p.2.toList)
    (hjoins : ¬ Joins cs) : ¬ HasUse out := by
  induction h with
  | nil => exact not_hasUse_of_notMem List.not_mem_nil
  | use _ hvalue _ ih =>
    obtain ⟨hvalueUse, hvalueEnd⟩ := hvalues _ (Pairs.mem_of_lookup_eq hvalue)
    intro huse
    rcases huse.of_append with huse | huse | hend
    · exact hvalueUse huse
    · exact ih (fun h => hjoins (h.append _)) huse
    · exact hvalueEnd hend
  | @char c rest out hchar hrest ih =>
    rintro ⟨name, hname, before, after, hout⟩
    rw [List.append_assoc] at hout
    cases before with
    | cons d before =>
      obtain ⟨-, hout⟩ := List.cons.inj hout
      exact ih (fun h => hjoins (h.append [c])) ⟨name, hname, before, after, hout.trans (List.append_assoc ..).symm⟩
    | nil =>
      obtain ⟨rfl, rfl⟩ := List.cons.inj hout
      rcases hrest.of_append with ⟨rest, rfl, -⟩ | ⟨front, name', after', ⟨more, hfront⟩, hname', rfl⟩
      · have huse := use?_useOf_append hname rest
        rw [useOf, List.cons_append, hchar] at huse
        cases huse
      · have hmore : more ≠ [] := by
          rintro rfl
          have huse := use?_useOf_append hname (useOf name' ++ after')
          rw [useOf, List.cons_append, ← hfront, List.append_nil, ← List.append_assoc, hchar] at huse
          cases huse
        have hbegun : Begun front := ⟨name, more, hname, hmore, by rw [hfront]; rfl⟩
        exact hjoins ⟨'$' :: front, name', after', ⟨[], front, hbegun, rfl⟩, hname', rfl⟩

/-- Nothing is begun at the end of an outcome where that is not so in the text or in a value. -/
theorem not_unfinished (h : Expands table cs out) (hvalues : ∀ p ∈ table, ¬ Unfinished p.2.toList) (hjoins : ¬ Joins cs)
    (hend : ¬ Unfinished cs) : ¬ Unfinished out := by
  induction h with
  | nil => exact hend
  | use _ hvalue _ ih =>
    intro hout
    rcases hout.of_append with hout | hout
    · exact ih (fun h => hjoins (h.append _)) (fun h => hend (h.append _)) hout
    · exact hvalues _ (Pairs.mem_of_lookup_eq hvalue) hout
  | @char c rest out hchar hrest ih =>
    rintro ⟨before, begun, hbegun, hout⟩
    cases before with
    | cons d before =>
      exact ih (fun h => hjoins (h.append [c])) (fun h => hend (h.append [c])) ⟨before, begun, hbegun, (List.cons.inj hout).2⟩
    | nil =>
      obtain ⟨rfl, rfl⟩ := List.cons.inj hout
      have hdollar : ∀ {front}, front <+: out → Unfinished ('$' :: front) := fun ⟨_, hfront⟩ =>
        ⟨[], _, (hfront ▸ hbegun).of_append, rfl⟩
      rw [← List.append_nil out] at hrest
      rcases hrest.of_append with ⟨rest, rfl, hnothing⟩ | ⟨front, name, after, hfront, hname, rfl⟩
      · generalize hnil : [] = tail at hnothing
        cases hnothing with
        | nil => exact hend (by rw [List.append_nil]; exact hdollar List.prefix_rfl)
        | @use name after _ _ hname => exact hjoins ⟨'$' :: out, name, after, hdollar List.prefix_rfl, hname, by simp⟩
        | char => cases hnil
      · exact hjoins ⟨'$' :: front, name, after, hdollar hfront, hname, rfl⟩

end Expands

end Treebank.Pattern

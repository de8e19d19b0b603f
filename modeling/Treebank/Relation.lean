import Treebank.Text.Pieces

/-!
# The hierarchy of relation labels

Every label but the two tops, `root` and `dep`, has one parent. A label with a subtype (`nmod:poss`) has its base as parent, a label
of the table the parent that the table names, a label with an underscore (`conj_and`) what stands before it, and every other label
`dep`. A label subsumes another if it is met on the way up from it.
-/

namespace Treebank.Relation

/-- The labels without a parent. -/
def tops : List String := ["root", "dep"]

/-- The labels of the table, each with its parent. -/
def parents : List (String × String) :=
  [("arg", "dep"), ("subj", "arg"), ("nsubj", "subj"), ("nsubjpass", "nsubj"), ("csubj", "subj"), ("csubjpass", "csubj"),
   ("obj", "arg"), ("dobj", "obj"), ("iobj", "obj"), ("comp", "arg"), ("ccomp", "comp"), ("xcomp", "comp"), ("acomp", "comp"),
   ("agent", "arg"), ("expl", "arg"), ("mod", "dep"), ("amod", "mod"), ("advmod", "mod"), ("neg", "advmod"), ("nmod", "mod"),
   ("nummod", "mod"), ("appos", "mod"), ("acl", "mod"), ("advcl", "mod"), ("poss", "mod"), ("possessive", "mod"),
   ("compound", "mod"), ("prep", "mod"), ("aux", "dep"), ("auxpass", "aux"), ("cop", "aux"), ("mark", "dep"), ("det", "mod"),
   ("case", "dep"), ("cc", "dep"), ("conj", "dep"), ("punct", "dep"), ("ref", "dep")]

/-- Whether a label is one of the common ones: a top or a label of the table. -/
def isKnown (name : String) : Bool := tops.contains name || (parents.lookup name).isSome

/-- What stands before the first occurrence of a character. -/
def base? (mark : Char) (name : String) : Option String :=
  (Text.splitFirst? mark name.toList).map fun (before, _) => String.ofList before

/-- The parent of a label. -/
def parent? (name : String) : Option String :=
  if name ∈ tops then none
  else
    match base? ':' name with
    | some base => some base
    | none =>
      match parents.lookup name with
      | some parent => some parent
      | none => some ((base? '_' name).getD "dep")

/-- A bound on the number of steps from a label up to a top: the labels of the table are at most five steps below `dep`, an
underscore and a colon each add one at most. -/
def height (name : String) : Nat :=
  if name ∈ tops then 0
  else if ':' ∈ name.toList then 8
  else
    match parents.lookup name with
    | some "dep" => 1
    | some "arg" | some "mod" | some "aux" => 2
    | some "subj" | some "obj" | some "comp" | some "advmod" => 3
    | some _ => 4
    | none => if '_' ∈ name.toList then 7 else 1

/-- The bounds of the labels of the table fit together. -/
theorem height_lt_of_mem : ∀ pair ∈ parents, height pair.2 < height pair.1 := by decide +kernel

/-- What is looked up stands in the list. -/
theorem mem_of_lookup {name parent : String} {pairs : List (String × String)} (h : pairs.lookup name = some parent) :
    (name, parent) ∈ pairs := by
  induction pairs with
  | nil => simp at h
  | cons pair pairs ih =>
    obtain ⟨k, v⟩ := pair
    rw [List.lookup_cons] at h
    split at h
    · simp_all
    · exact List.mem_cons_of_mem _ (ih h)

/-- A label without a colon is at most seven steps below a top. -/
theorem height_le_of_no_colon {name : String} (hd : ':' ∉ name.toList) : height name ≤ 7 := by
  unfold height
  simp only [hd, if_false]
  repeat' split
  all_goals omega

/-- A label without a colon and without an underscore is at most four steps below a top. -/
theorem height_le_of_plain {name : String} (hd : ':' ∉ name.toList) (hu : '_' ∉ name.toList) : height name ≤ 4 := by
  unfold height
  simp only [hd, hu, if_false]
  repeat' split
  all_goals omega

/-- The base of a label does not hold the mark, which the label does hold. -/
theorem of_base?_eq_some {mark : Char} {name base : String} (h : base? mark name = some base) :
    mark ∉ base.toList ∧ mark ∈ name.toList ∧ ∀ c ∈ base.toList, c ∈ name.toList := by
  obtain ⟨⟨before, after⟩, hs, rfl⟩ := Option.map_eq_some_iff.1 h
  obtain ⟨he, hn⟩ := Text.of_splitFirst?_eq_some hs
  refine ⟨by simpa using hn, by simp [he], fun c hc => ?_⟩
  rw [he]
  exact List.mem_append_left _ (by simpa using hc)

/-- A parent is nearer to a top than its label. -/
theorem height_parent?_lt {name parent : String} (h : parent? name = some parent) : height parent < height name := by
  unfold parent? at h
  split at h
  · simp at h
  · rename_i ht
    split at h
    · rename_i base hb
      obtain ⟨hn, hm, _⟩ := of_base?_eq_some hb
      obtain rfl := Option.some.inj h
      have h8 : height name = 8 := by simp [height, ht, hm]
      have := height_le_of_no_colon hn
      omega
    · rename_i hb
      have hd : ':' ∉ name.toList := Text.splitFirst?_eq_none_iff.1 (Option.map_eq_none_iff.1 hb)
      split at h
      · rename_i p hp
        obtain rfl := Option.some.inj h
        exact height_lt_of_mem _ (mem_of_lookup hp)
      · rename_i hp
        obtain rfl := Option.some.inj h
        cases hs : base? '_' name with
        | none =>
          have hu : '_' ∉ name.toList := Text.splitFirst?_eq_none_iff.1 (Option.map_eq_none_iff.1 hs)
          have h1 : height name = 1 := by simp [height, ht, hd, hp, hu]
          rw [h1]
          decide
        | some base =>
          obtain ⟨hn, hm, hsub⟩ := of_base?_eq_some hs
          have h7 : height name = 7 := by simp [height, ht, hp, hm, hd]
          have := height_le_of_plain (fun hb => hd (hsub _ hb)) hn
          simp only [Option.getD_some]
          omega

/-- The labels met on the way up from a label, nearest first, up to the first one that has been seen before. -/
def climb (seen : List String) (name : String) : List String :=
  match h : parent? name with
  | none => []
  | some parent =>
    have := height_parent?_lt h
    if parent ∈ seen then [] else parent :: climb (parent :: seen) parent
termination_by height name

/-- The labels that subsume a label, nearest first, without the label itself. -/
def ancestors (name : String) : List String := climb [name] name

/-- Whether `general` is `specific` or one of its ancestors. -/
def subsumes (general specific : String) : Bool := specific == general || (ancestors specific).contains general

end Treebank.Relation

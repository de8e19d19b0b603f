import Treebank.Text.Blank
import Treebank.Text.Case
import Treebank.Text.Digit
import Treebank.Text.Letter

/-!
# Regular expressions

The syntax trees of regular expressions with captures, backreferences and assertions, and the classes of characters that they use.
Letters, digits and blanks are those of all scripts, unless an expression asks for those of ASCII alone.
-/

namespace Treebank

namespace Regex

/-- How characters are compared and classed. -/
structure Mode where
  /-- Case is disregarded. -/
  fold : Bool := false
  /-- Only ASCII letters, digits and blanks count as such, and only ASCII letters have case. -/
  ascii : Bool := false
  deriving DecidableEq, Repr, Inhabited

/-- A change of the mode; nothing stands for no change. -/
structure ModeChange where
  fold : Option Bool := none
  ascii : Option Bool := none
  deriving DecidableEq, Repr

/-- The mode after a change. -/
def Mode.change (m : Mode) (c : ModeChange) : Mode := ⟨c.fold.getD m.fold, c.ascii.getD m.ascii⟩

/-- A class of characters with a name. -/
inductive Category where
  | digit
  | blank
  /-- Letters, digits and the underscore. -/
  | word
  deriving DecidableEq, Repr

/-- Whether a character is of a class, `ascii` standing for the ASCII characters alone. -/
def Category.holds (ascii : Bool) : Category → Char → Bool
  | .digit, c => if ascii then Text.isAsciiDigit c else Text.isDecimalDigit c
  | .blank, c => if ascii then c = ' ' || (decide ('\t' ≤ c) && decide (c ≤ '\r')) else Text.isBlank c
  | .word, c => (Text.isAlphanumeric c && (!ascii || decide (c.toNat < 128))) || c = '_'

/-- One item of a set of characters in brackets. -/
inductive SetItem where
  /-- One code point. -/
  | code (n : Nat)
  /-- A range of code points. -/
  | range (low high : Nat)
  | category (negated : Bool) (c : Category)
  deriving DecidableEq, Repr

/-- A regular expression. -/
inductive Node where
  /-- Nothing. -/
  | empty
  /-- One character. -/
  | char (c : Char)
  /-- Any character but one. -/
  | notChar (c : Char)
  /-- Any character, line feeds included or not. -/
  | any (lineFeeds : Bool)
  /-- A character of a set, or one that is not. -/
  | set (negated : Bool) (items : List SetItem)
  | seq (first second : Node)
  /-- The first alternative, or else the second. -/
  | alt (first second : Node)
  /-- Repetitions of an expression, as many or as few as possible. -/
  | repeated (least : Nat) (most : Option Nat) (greedy : Bool) (body : Node)
  /-- A group that captures what it matches. -/
  | group (number : Nat) (body : Node)
  /-- An expression whose first way to match is final. -/
  | atomic (body : Node)
  /-- An expression that is matched in a changed mode. -/
  | scoped (change : ModeChange) (body : Node)
  /-- What a group captured. -/
  | backref (number : Nat)
  /-- What follows matches, or does not. -/
  | ahead (negated : Bool) (body : Node)
  /-- What stands before, of a fixed width, matches, or does not. -/
  | behind (negated : Bool) (width : Nat) (body : Node)
  /-- One of two expressions, depending on whether a group has captured. -/
  | ifGroup (number : Nat) (thenBody elseBody : Node)
  /-- The start of the text, or of any line. -/
  | lineStart (everyLine : Bool)
  /-- The end of the text, also before a line feed at the end, or of any line. -/
  | lineEnd (everyLine : Bool)
  | textStart
  | textEnd
  /-- The border of a word, or a place that is none. -/
  | wordBorder (negated : Bool)
  deriving DecidableEq, Repr, Inhabited

/-- The least and the greatest number of characters that an expression may match; nothing stands for no bound. -/
structure Width where
  least : Nat
  most : Option Nat
  deriving DecidableEq, Repr, Inhabited

/-- The width of two expressions after each other. -/
def Width.add (a b : Width) : Width :=
  ⟨a.least + b.least, a.most.bind fun m => b.most.map (m + ·)⟩

/-- The width of a choice between two expressions. -/
def Width.max (a b : Width) : Width :=
  ⟨min a.least b.least, a.most.bind fun m => b.most.map (Nat.max m ·)⟩

/-- The width of repetitions. -/
def Width.times (a : Width) (least : Nat) (most : Option Nat) : Width where
  least := a.least * least
  most :=
    match most with
    | some 0 => some 0
    | some n => a.most.map (· * n)
    | none => if a.most = some 0 then some 0 else none

/-- The width of an expression, given the widths of the groups. -/
def Node.width (groups : Nat → Width) : Node → Width
  | .char _ | .notChar _ | .any _ | .set .. => ⟨1, some 1⟩
  | .seq a b => (a.width groups).add (b.width groups)
  | .alt a b => (a.width groups).max (b.width groups)
  | .repeated least most _ a => (a.width groups).times least most
  | .group _ a | .atomic a | .scoped _ a => a.width groups
  | .backref n => groups n
  | .ifGroup _ a b => (a.width groups).max (b.width groups)
  | _ => ⟨0, some 0⟩

end Regex

/-- A regular expression that was read, and the mode in which it asks to be matched as a whole. -/
structure Regex where
  node : Regex.Node
  mode : Regex.Mode
  deriving DecidableEq, Repr, Inhabited

end Treebank

import Treebank.Regex.Syntax

/-!
# Matching by backtracking

An expression is matched at a place of a text and hands every way to match, in order of preference, to what is to be matched next;
the first way that what follows accepts is taken. Of a repetition that matches nothing one round is allowed, so repetitions come to
an end. Without regard to case, a character matches those with the same lower case, or a variant of it; but in a set, a code point
above the first 65536 stands for a lower case character alone.
-/

namespace Treebank

namespace Regex

/-- A place in a text, and what the groups have captured on the way there. -/
structure Cursor where
  /-- The text before the place, backwards. -/
  before : List Char
  rest : List Char
  captures : List (Nat × List Char)
  deriving DecidableEq, Repr

/-- The lower case of a code point, as far as the mode knows of case. -/
def Mode.lower (m : Mode) (n : Nat) : Nat :=
  if !m.fold then n
  else if m.ascii then if 0x41 ≤ n && n ≤ 0x5A then n + 32 else n
  else Text.lowerCode n

/-- The code points that count as the same as a code point. -/
def Mode.variants (m : Mode) (n : Nat) : List Nat :=
  if !m.fold then [n]
  else if m.ascii then
    if 0x61 ≤ m.lower n && m.lower n ≤ 0x7A then [m.lower n, m.lower n - 32] else [n]
  else (Text.caseVariants (m.lower n)).flatMap Text.lowerSources

/-- Whether a character is another one. -/
def charHolds (m : Mode) (c d : Char) : Bool := (m.variants d.toNat).contains c.toNat

/-- Whether a character lies in an item of a set. A range that ends above the first 65536 code points holds without regard to case
also the characters whose upper case it holds. -/
def SetItem.holds (m : Mode) (d : Char) : SetItem → Bool
  | .code n => if m.fold && n > 0xFFFF then m.lower d.toNat == n else (m.variants d.toNat).contains n
  | .range low high =>
    let inside (n : Nat) := decide (low ≤ n) && decide (n ≤ high)
    (m.variants d.toNat).any inside || (m.fold && high > 0xFFFF && inside (Text.upperCode (m.lower d.toNat)))
  | .category negated c => c.holds m.ascii d != negated

/-- What follows an expression. -/
abbrev Rest := Cursor → Option Cursor

/-- Passes one character that satisfies a test. -/
def step (p : Char → Bool) (s : Cursor) (next : Rest) : Option Cursor :=
  match s.rest with
  | d :: rest => if p d then next { s with before := d :: s.before, rest := rest } else none
  | [] => none

/-- Passes a text. -/
def passText (m : Mode) : List Char → Cursor → Rest → Option Cursor
  | [], s, next => next s
  | c :: cs, s, next => step (fun d => m.lower c.toNat == m.lower d.toNat) s fun s => passText m cs s next

/-- Repetitions of a body. `count` rounds are behind; `last` is the length of the text that was left when the last round that was
not due began. -/
def repeatLoop (body : Cursor → Rest → Option Cursor) (least : Nat) (most : Option Nat) (greedy : Bool) :
    (fuel count : Nat) → (last : Option Nat) → Cursor → Rest → Option Cursor
  | 0, _, _, s, next => next s
  | fuel + 1, count, last, s, next =>
    if count < least then body s fun s => repeatLoop body least most greedy fuel (count + 1) last s next
    else
      let more : Unit → Option Cursor := fun _ =>
        if most.all (count < ·) && last != some s.rest.length then
          body s fun t => repeatLoop body least most greedy fuel (count + 1) (some s.rest.length) t next
        else none
      if greedy then (more ()).orElse fun _ => next s else (next s).orElse more

/-- Whether a place is at the border of a word. -/
def Cursor.atBorder (ascii : Bool) (s : Cursor) : Bool :=
  s.before.head?.any (Category.word.holds ascii) != s.rest.head?.any (Category.word.holds ascii)

/-- Moves a place back. -/
def Cursor.back (s : Cursor) (n : Nat) : Cursor :=
  { s with before := s.before.drop n, rest := (s.before.take n).reverse ++ s.rest }

/-- Goes on if a condition holds. -/
def when (b : Bool) (s : Cursor) (next : Rest) : Option Cursor := if b then next s else none

/-- Looks for a match of an assertion; the place stays, and what it captured is kept unless it is negated. -/
def assertion (negated : Bool) (found : Option Cursor) (s : Cursor) (next : Rest) : Option Cursor :=
  match found, negated with
  | some t, false => next { s with captures := t.captures }
  | none, true => next s
  | _, _ => none

/-- Matches an expression and then what follows. -/
def Node.run : Node → Mode → Cursor → Rest → Option Cursor
  | .empty, _, s, next => next s
  | .char c, m, s, next => step (charHolds m c) s next
  | .notChar c, m, s, next => step (fun d => !charHolds m c d) s next
  | .any lineFeeds, _, s, next => step (fun d => lineFeeds || d != '\n') s next
  | .set negated items, m, s, next => step (fun d => items.any (·.holds m d) != negated) s next
  | .seq a b, m, s, next => a.run m s fun s => b.run m s next
  | .alt a b, m, s, next => (a.run m s next).orElse fun _ => b.run m s next
  | .repeated least most greedy a, m, s, next =>
    repeatLoop (a.run m) least most greedy (least + s.rest.length + 2) 0 none s next
  | .group n a, m, s, next =>
    a.run m s fun t =>
      next { t with captures := (n, s.rest.take (s.rest.length - t.rest.length)) :: t.captures.filter (·.1 != n) }
  | .atomic a, m, s, next => (a.run m s some).bind next
  | .scoped change a, m, s, next => a.run (m.change change) s next
  | .backref n, m, s, next =>
    match s.captures.lookup n with
    | some text => passText m text s next
    | none => none
  | .ahead negated a, m, s, next => assertion negated (a.run m s some) s next
  | .behind negated width a, m, s, next =>
    assertion negated (if width ≤ s.before.length then a.run m (s.back width) some else none) s next
  | .ifGroup n a b, m, s, next => if (s.captures.lookup n).isSome then a.run m s next else b.run m s next
  | .lineStart everyLine, _, s, next => when (s.before.isEmpty || (everyLine && s.before.head? == some '\n')) s next
  | .lineEnd everyLine, _, s, next =>
    when (s.rest.isEmpty || s.rest == ['\n'] || (everyLine && s.rest.head? == some '\n')) s next
  | .textStart, _, s, next => when s.before.isEmpty s next
  | .textEnd, _, s, next => when s.rest.isEmpty s next
  | .wordBorder negated, m, s, next => when (!(s.before.isEmpty && s.rest.isEmpty) && s.atBorder m.ascii != negated) s next

end Regex

/-- Whether a whole text matches, with or without regard to case. -/
def Regex.accepts (r : Regex) (fold : Bool) (text : String) : Bool :=
  (r.node.run { r.mode with fold := fold || r.mode.fold } ⟨[], text.toList, []⟩ fun s =>
    if s.rest.isEmpty then some s else none).isSome

end Treebank

import Treebank.Decimal.Binary64
import Treebank.Text.Blank
import Treebank.Text.Case
import Treebank.Text.Digit

/-!
# Reading numerals

Integers and floating point numbers as people write them: with blanks around, a sign in front, digits of any script, and single
underscores between digits. A floating point numeral has a point or an exponent or neither, or is a word for infinity or for
not-a-number in any mix of cases.
-/

namespace Treebank.Numeral

/-- The blanks that may stand around a numeral: the blanks but the four separators U+001C to U+001F. -/
def isMargin (c : Char) : Bool := Text.isBlank c && !(decide ('\x1c' ≤ c) && decide (c ≤ '\x1f'))

/-- A text without the blanks around it. -/
def trimMargins (cs : List Char) : List Char := Text.dropEndWhile isMargin (cs.dropWhile isMargin)

/-- The sign in front of a numeral (true for minus) and what follows. -/
def takeSign : List Char → Bool × List Char
  | '-' :: cs => (true, cs)
  | '+' :: cs => (false, cs)
  | cs => (false, cs)

/-- A text whose underscores all stand between two digits, without them; nothing if one stands elsewhere. `before` says whether
the character before the text is a digit. -/
def dropUnderscores (before : Bool) : List Char → Option (List Char)
  | [] => some []
  | '_' :: cs =>
    match cs with
    | d :: _ => if before && Text.isDecimalDigit d then dropUnderscores false cs else none
    | [] => none
  | c :: cs => (dropUnderscores (Text.isDecimalDigit c) cs).map (c :: ·)

/-- The number that a non-empty list of digits writes. -/
def digits? (cs : List Char) : Option Nat :=
  if cs.isEmpty || !cs.all Text.isDecimalDigit then none else some (Text.digitsValue cs)

/-- An integer numeral. -/
def int? (cs : List Char) : Option Int := do
  let (negative, body) := takeSign (trimMargins cs)
  let n ← digits? (← dropUnderscores false body)
  return if negative then -(n : Int) else n

/-- The exponent at the end of a floating point numeral: nothing there means zero. -/
def exponent? : List Char → Option Int
  | [] => some 0
  | c :: cs =>
    if c = 'e' || c = 'E' then do
      let (negative, body) := takeSign cs
      let n ← digits? body
      return if negative then -(n : Int) else n
    else none

/-- The digits before and after the point, and the exponent, of an unsigned floating point numeral. -/
def magnitude? (negative : Bool) (cs : List Char) : Option Binary64 := do
  let whole := cs.takeWhile Text.isDecimalDigit
  let (fraction, rest) :=
    match cs.dropWhile Text.isDecimalDigit with
    | '.' :: rest => (rest.takeWhile Text.isDecimalDigit, rest.dropWhile Text.isDecimalDigit)
    | rest => ([], rest)
  let n ← digits? (whole ++ fraction)
  let e ← exponent? rest
  return Binary64.ofDecimal negative n (e - fraction.length)

/-- A floating point numeral. -/
def float? (cs : List Char) : Option Binary64 := do
  let (negative, body) := takeSign (← dropUnderscores false (trimMargins cs))
  let word := String.ofList (Text.lower body)
  if word = "inf" || word = "infinity" then return .infinite negative
  else if word = "nan" then return .notANumber
  else magnitude? negative body

end Treebank.Numeral

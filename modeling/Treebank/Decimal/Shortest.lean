import Treebank.Decimal.Binary64
import Treebank.Text.Digit

/-!
# The fewest digits that read back

The text of a floating point value has the fewest decimal digits among all decimals that round to the value; of several, those
nearest to it. The decimals that round to `m * 2 ^ q` form an interval: from halfway to the neighbour below to halfway to the
neighbour above, with its ends exactly if `m` is even. For one, two, … seventeen digits the two neighbours of the value on the grid
of decimals of that many digits are tried; the first grid with a neighbour inside the interval gives the digits.

How the digits are laid out is a record of decisions, `Layout`: which exponents are written positionally, and how an exponent is
written. A positional number always has a point.
-/

namespace Treebank.Binary64

/-- `digits * 10 ^ exponent`. -/
structure Decimal where
  digits : Nat
  exponent : Int
  deriving DecidableEq, Repr, Inhabited

/-- The least `k` with `m * 2 ^ q < 10 ^ k`, for a positive `m`. -/
def decimalMagnitude (m : Nat) (q : Int) : Int :=
  let num := m * twoTo q.toNat
  let den := twoTo (-q).toNat
  if den ≤ num then (Text.natDigits (num / den)).length
  else 1 - (Text.natDigits ((den - 1) / num)).length

/-- Whether `c * 10 ^ g` rounds to `m * 2 ^ q`. -/
def readsBack (m : Nat) (q : Int) (c : Nat) (g : Int) : Bool :=
  let low := if m = twoTo 52 && decide (q > -1074) then 4 * m - 1 else 4 * m - 2
  let unit := twoTo q.toNat * tenTo (-g).toNat
  let point := 4 * c * (twoTo (-q).toNat * tenTo g.toNat)
  if m % 2 = 0 then decide (low * unit ≤ point) && decide (point ≤ (4 * m + 2) * unit)
  else decide (low * unit < point) && decide (point < (4 * m + 2) * unit)

/-- The neighbour of `m * 2 ^ q` on the grid of multiples of `10 ^ g` that rounds to it, the nearer one if both do, and on a tie the
even one. -/
def onGrid? (m : Nat) (q g : Int) : Option Decimal :=
  let num := m * twoTo q.toNat * tenTo (-g).toNat
  let den := twoTo (-q).toNat * tenTo g.toNat
  let below := num / den
  match readsBack m q below g, readsBack m q (below + 1) g with
  | true, true => some ⟨roundDiv num den, g⟩
  | true, false => some ⟨below, g⟩
  | false, true => some ⟨below + 1, g⟩
  | false, false => none

/-- The exact decimal value of `m * 2 ^ q`. -/
def exactDecimal (m : Nat) (q : Int) : Decimal :=
  if q ≥ 0 then ⟨m * twoTo q.toNat, 0⟩ else ⟨m * Nat.pow 5 (-q).toNat, q⟩

/-- The decimal with the fewest digits that rounds to `m * 2 ^ q`, for a positive `m`. -/
def shortest (m : Nat) (q : Int) : Decimal :=
  let k := decimalMagnitude m q
  ((List.range 17).findSome? fun (n : Nat) => onGrid? m q (k - (n + 1))).getD (exactDecimal m q)

/-- The digits of a decimal without trailing zeros, and the exponent of the first digit. -/
def Decimal.significant (d : Decimal) : List Char × Int :=
  let digits := Text.natDigits d.digits
  ((digits.reverse.dropWhile (· = '0')).reverse, d.exponent + digits.length - 1)

/-- The digits written with the point where the exponent of the first digit puts it. -/
def positional (digits : List Char) (e : Int) : List Char :=
  if e < 0 then '0' :: '.' :: List.replicate ((-e).toNat - 1) '0' ++ digits
  else
    let whole := e.toNat + 1
    if digits.length ≤ whole then digits ++ List.replicate (whole - digits.length) '0' ++ ['.', '0']
    else digits.take whole ++ '.' :: digits.drop whole

/-- How the digits of a number are laid out. -/
structure Layout where
  /-- The least exponent of the first digit that is written positionally. -/
  plainFrom : Int
  /-- The exponent of the first digit from which on numbers are written with an exponent again. -/
  plainBelow : Int
  /-- Whether an exponent that is not negative has a sign. -/
  exponentPlus : Bool
  /-- The least number of digits of an exponent. -/
  exponentWidth : Nat

/-- The layout of numbers in text: positional from `0.0001` up to below `10 ^ 16`, and otherwise with an exponent that has a sign and
at least two digits. -/
def plainLayout : Layout where
  plainFrom := -4
  plainBelow := 16
  exponentPlus := true
  exponentWidth := 2

/-- The digits written with the point after the first and an exponent. -/
def scientific (layout : Layout) (digits : List Char) (e : Int) : List Char :=
  let exponent := Text.natDigits e.natAbs
  let fraction := if digits.length ≤ 1 then [] else '.' :: digits.drop 1
  let sign := if e < 0 then ['-'] else if layout.exponentPlus then ['+'] else []
  digits.take 1 ++ fraction ++ 'e' :: sign ++ List.replicate (layout.exponentWidth - exponent.length) '0' ++ exponent

/-- A value in a layout. -/
def renderIn (layout : Layout) : Binary64 → List Char
  | .notANumber => ['n', 'a', 'n']
  | .infinite negative => (if negative then ['-'] else []) ++ ['i', 'n', 'f']
  | .finite negative m q =>
    let sign := if negative then ['-'] else []
    if m = 0 then sign ++ ['0', '.', '0']
    else
      let (digits, e) := (shortest m q).significant
      sign ++ (if layout.plainFrom ≤ e && e < layout.plainBelow then positional digits e else scientific layout digits e)

/-- The text of a value. -/
def render (x : Binary64) : List Char := x.renderIn plainLayout

/-- The text of a value, as a string. -/
def text (x : Binary64) : String := String.ofList x.render

/-- A finite value in tenths, rounded to the nearest, a tie going to the even number of tenths. -/
def tenths (m : Nat) (q : Int) : Nat := roundDiv (10 * m * twoTo q.toNat) (twoTo (-q).toNat)

/-- A value with one digit after the point. -/
def renderTenths : Binary64 → String
  | .finite negative m q =>
    let t := tenths m q
    String.ofList ((if negative then ['-'] else []) ++ Text.natDigits (t / 10) ++ '.' :: Text.natDigits (t % 10))
  | x => x.text

/-- The value nearest to a value rounded to tenths. -/
def roundTenths : Binary64 → Binary64
  | .finite negative m q => ofDecimal negative (tenths m q) (-1)
  | x => x

end Treebank.Binary64

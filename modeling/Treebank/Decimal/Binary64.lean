/-!
# Binary floating point values

A value of the 64-bit binary format: not a number, an infinity, or a signed multiple of a power of two. Every result is the exact
one rounded once, to the nearest value and on a tie to the one with an even mantissa. Equality of values (`same`) is not equality of
data: not-a-number differs from itself, and the two zeros are the same.
-/

namespace Treebank

/-- A 64-bit binary floating point value. A finite one is `mantissa * 2 ^ exponent`, with the mantissa below `2 ^ 53` and, where
the exponent is above `-1074`, at least `2 ^ 52`. -/
inductive Binary64 where
  | notANumber
  | infinite (negative : Bool)
  | finite (negative : Bool) (mantissa : Nat) (exponent : Int)
  deriving DecidableEq, Repr, Inhabited

namespace Binary64

/-- A power of two. -/
def twoTo (exponent : Nat) : Nat := Nat.pow 2 exponent

/-- A power of ten. -/
def tenTo (exponent : Nat) : Nat := Nat.pow 10 exponent

/-- Zero, with its sign. -/
def zero (negative : Bool) : Binary64 := .finite negative 0 (-1074)

/-- One. -/
def one : Binary64 := .finite false (twoTo 52) (-52)

/-- Not-a-number is the one value that differs from itself. -/
def isNaN (x : Binary64) : Bool := decide (x = .notANumber)

/-- Whether two values are one datum but for the sign of a zero. -/
def alike : Binary64 → Binary64 → Bool
  | .finite _ 0 _, .finite _ 0 _ => true
  | x, y => decide (x = y)

/-- Whether two values are equal as numbers. -/
def same (x y : Binary64) : Bool := !x.isNaN && x.alike y

/-- `num / den`, rounded to an integer; a tie goes to the even one. -/
def roundDiv (num den : Nat) : Nat :=
  let quotient := num / den
  match compare (2 * (num % den)) den with
  | .lt => quotient
  | .gt => quotient + 1
  | .eq => if quotient % 2 = 0 then quotient else quotient + 1

/-- The greatest `e` with `2 ^ e ≤ num / den`, for positive `num` and `den`. -/
def binaryMagnitude (num den : Nat) : Int :=
  let e : Int := (num.log2 : Int) - den.log2
  if num * twoTo (-e).toNat < den * twoTo e.toNat then e - 1 else e

/-- The value nearest to `num / den`, with a sign. -/
def ofRatio (negative : Bool) (num den : Nat) : Binary64 :=
  if num = 0 || den = 0 then zero negative
  else
    let q := max (binaryMagnitude num den - 52) (-1074)
    let m := roundDiv (num * twoTo (-q).toNat) (den * twoTo q.toNat)
    let (m, q) := if m = twoTo 53 then (twoTo 52, q + 1) else (m, q)
    if m = 0 then zero negative else if q > 971 then .infinite negative else .finite negative m q

/-- The value nearest to `digits * 10 ^ exponent`, with a sign. Magnitudes beyond the format need no arithmetic. -/
def ofDecimal (negative : Bool) (digits : Nat) (exponent : Int) : Binary64 :=
  if digits = 0 then zero negative
  else
    let magnitude : Int := (Nat.toDigits 10 digits).length + exponent
    if magnitude > 310 then .infinite negative
    else if magnitude < -330 then zero negative
    else ofRatio negative (digits * tenTo exponent.toNat) (tenTo (-exponent).toNat)

/-- The value nearest to an integer. -/
def ofInt (n : Int) : Binary64 := ofDecimal (n < 0) n.natAbs 0

/-- A finite value as an integer multiple of `2 ^ q`, for a `q` not above its exponent. -/
def scaled (negative : Bool) (m : Nat) (e q : Int) : Int :=
  let n : Int := m * twoTo (e - q).toNat
  if negative then -n else n

/-- The difference of two values. -/
def sub : Binary64 → Binary64 → Binary64
  | .finite n₁ m₁ e₁, .finite n₂ m₂ e₂ =>
    let q := min e₁ e₂
    let d := scaled n₁ m₁ e₁ q - scaled n₂ m₂ e₂ q
    if d = 0 then zero (m₁ = 0 && m₂ = 0 && n₁ && !n₂)
    else ofRatio (d < 0) (d.natAbs * twoTo q.toNat) (twoTo (-q).toNat)
  | .infinite a, .infinite b => if a = b then .notANumber else .infinite a
  | .infinite a, .finite .. => .infinite a
  | .finite .., .infinite b => .infinite !b
  | _, _ => .notANumber

/-- The value a thousand times as large. -/
def thousandfold : Binary64 → Binary64
  | .finite n m e => ofRatio n (1000 * m * twoTo e.toNat) (twoTo (-e).toNat)
  | x => x

end Binary64

end Treebank

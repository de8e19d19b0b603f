import Treebank.Decimal.Numeral
import Treebank.Json.Basic

/-!
# Reading JSON

A text is first cut into lexemes; a pushdown then builds the value from the lexemes, with a stack of the arrays and objects that are
still open. At the first fault the open ones are closed around a `broken` leaf.
-/

namespace Treebank.Json

/-- The value of a hexadecimal digit. -/
def hexDigit? (c : Char) : Option Nat :=
  if '0' ≤ c && c ≤ '9' then some (c.toNat - 48)
  else if 'a' ≤ c && c ≤ 'f' then some (c.toNat - 87)
  else if 'A' ≤ c && c ≤ 'F' then some (c.toNat - 55)
  else none

/-- The number that a list of hexadecimal digits writes. -/
def hexValue? (cs : List Char) : Option Nat :=
  cs.foldlM (fun n c => (hexDigit? c).map (16 * n + ·)) 0

/-- The character that a letter behind a backslash stands for. -/
def escape? : Char → Option Char
  | '"' => some '"'
  | '\\' => some '\\'
  | '/' => some '/'
  | 'b' => some '\x08'
  | 'f' => some '\x0c'
  | 'n' => some '\n'
  | 'r' => some '\r'
  | 't' => some '\t'
  | _ => none

/-- The content of a string whose opening quote has been read, and the text behind its closing quote. `high` is the first half of a
character written as two halves, when the second half is due. -/
def scanText (high : Option Nat) : List Char → Option (List Char × List Char)
  | [] => none
  | '"' :: cs => if high.isSome then none else some ([], cs)
  | '\\' :: 'u' :: a :: b :: c :: d :: cs => do
    let n ← hexValue? [a, b, c, d]
    let isLow := decide (0xDC00 ≤ n) && decide (n ≤ 0xDFFF)
    match high with
    | some h =>
      if isLow then
        let (text, rest) ← scanText none cs
        return (Char.ofNat (0x10000 + (h - 0xD800) * 0x400 + (n - 0xDC00)) :: text, rest)
      else none
    | none =>
      if 0xD800 ≤ n && n ≤ 0xDBFF then scanText (some n) cs
      else if isLow then none
      else
        let (text, rest) ← scanText none cs
        return (Char.ofNat n :: text, rest)
  | '\\' :: e :: cs => do
    if high.isSome then none
    else
      let c ← escape? e
      let (text, rest) ← scanText none cs
      return (c :: text, rest)
  | c :: cs => do
    if high.isSome || c = '\\' || c.toNat < 0x20 then none
    else
      let (text, rest) ← scanText none cs
      return (c :: text, rest)

/-- The digits of a fraction at the start of a text, and what follows; without a point there are none. -/
def fraction? (cs : List Char) : Option (List Char × List Char) :=
  match cs with
  | '.' :: rest =>
    if (rest.takeWhile Text.isAsciiDigit).isEmpty then none
    else some (rest.takeWhile Text.isAsciiDigit, rest.dropWhile Text.isAsciiDigit)
  | _ => some ([], cs)

/-- The exponent at the start of a text, if there is one, and what follows. -/
def exponent? (cs : List Char) : Option (Option Int × List Char) :=
  match cs with
  | [] => some (none, [])
  | c :: after =>
    if c = 'e' || c = 'E' then
      let (negative, body) := Numeral.takeSign after
      let digits := body.takeWhile Text.isAsciiDigit
      let n : Int := Text.digitsValue digits
      if digits.isEmpty then none else some (some (if negative then -n else n), body.dropWhile Text.isAsciiDigit)
    else some (none, cs)

/-- A number at the start of a text, and what follows: an optional minus sign, digits without a leading zero, and possibly a
fraction and an exponent. -/
def number? (cs : List Char) : Option (Json × List Char) := do
  let (negative, body) := match cs with
    | '-' :: rest => (true, rest)
    | _ => (false, cs)
  let whole := body.takeWhile Text.isAsciiDigit
  if whole.isEmpty || (whole.head? == some '0' && whole.length > 1) then none
  else
    let (fraction, rest) ← fraction? (body.dropWhile Text.isAsciiDigit)
    let (exponent, rest) ← exponent? rest
    let n := Text.digitsValue (whole ++ fraction)
    if fraction.isEmpty && exponent.isNone then return (.int (if negative then -(n : Int) else n), rest)
    else return (.float (Binary64.ofDecimal negative n (exponent.getD 0 - fraction.length)), rest)

/-- The units of a JSON text. -/
inductive Lexeme where
  | openArray
  | closeArray
  | openObject
  | closeObject
  | comma
  | colon
  | scalar (v : Json)

/-- The blanks of a JSON text. -/
def isSpace (c : Char) : Bool := c = ' ' || c = '\t' || c = '\n' || c = '\r'

/-- The first lexeme of a text that does not start with a blank, and the text behind it. A text that starts with none is broken. -/
def lexeme (cs : List Char) : Lexeme × List Char :=
  match cs with
  | '[' :: rest => (.openArray, rest)
  | ']' :: rest => (.closeArray, rest)
  | '{' :: rest => (.openObject, rest)
  | '}' :: rest => (.closeObject, rest)
  | ',' :: rest => (.comma, rest)
  | ':' :: rest => (.colon, rest)
  | '"' :: rest =>
    match scanText none rest with
    | some (text, rest) => (.scalar (.str (String.ofList text)), rest)
    | none => (.scalar .broken, [])
  | 't' :: 'r' :: 'u' :: 'e' :: rest => (.scalar (.bool true), rest)
  | 'f' :: 'a' :: 'l' :: 's' :: 'e' :: rest => (.scalar (.bool false), rest)
  | 'n' :: 'u' :: 'l' :: 'l' :: rest => (.scalar .null, rest)
  | _ =>
    match number? cs with
    | some (v, rest) => (.scalar v, rest)
    | none => (.scalar .broken, [])

/-- The lexemes of a text. -/
def lexemes (cs : List Char) : List Lexeme :=
  match cs.dropWhile isSpace with
  | [] => []
  | text =>
    let next := lexeme text
    if next.2.length < cs.length then next.1 :: lexemes next.2 else [next.1]
termination_by cs.length

/-- An array or an object that is still open, with what it holds so far, the last first. -/
inductive Frame where
  | items (before : List Json)
  | fields (before : List (String × Json)) (key : String)

/-- What may stand next in a text. -/
inductive Expect where
  | value
  | valueOrEnd
  | key
  | keyOrEnd
  | colon
  | more

/-- Closes the open arrays and objects around a value. -/
def enclose (v : Json) : List Frame → Json
  | [] => v
  | .items before :: stack => enclose (.arr (v :: before).reverse) stack
  | .fields before key :: stack => enclose (.obj ((key, v) :: before).reverse) stack

/-- Closes the open arrays and objects around a fault at which no key was read. -/
def breakOff : List Frame → Json
  | .fields before _ :: stack => enclose (.obj (("", .broken) :: before).reverse) stack
  | stack => enclose .broken stack

/-- How far a text has been read. -/
inductive Progress where
  /-- Inside the open arrays and objects, or before the value. -/
  | reading (expect : Expect) (stack : List Frame)
  /-- Behind the value. -/
  | complete (v : Json)
  /-- Something stands behind the value. -/
  | trailing (v : Json)
  /-- The value was broken off. -/
  | failed (v : Json)

/-- Goes on behind a complete value. -/
def deliver (v : Json) : List Frame → Progress
  | [] => .complete v
  | .items before :: stack => .reading .more (.items (v :: before) :: stack)
  | .fields before key :: stack => .reading .more (.fields ((key, v) :: before) "" :: stack)

/-- Breaks the value off where a value, or the colon before one, is missing. -/
def failAtValue (stack : List Frame) : Progress := .failed (enclose .broken stack)

/-- Reads a lexeme where a value may stand. -/
def stepValue (stack : List Frame) : Lexeme → Progress
  | .scalar v => if v.isWhole then deliver v stack else .failed (enclose v stack)
  | .openArray => .reading .valueOrEnd (.items [] :: stack)
  | .openObject => .reading .keyOrEnd (.fields [] "" :: stack)
  | _ => failAtValue stack

/-- Reads a lexeme. -/
def Progress.step : Progress → Lexeme → Progress
  | .complete v, _ => .trailing v
  | .reading .value stack, l => stepValue stack l
  | .reading .valueOrEnd (.items before :: stack), .closeArray => deliver (.arr before.reverse) stack
  | .reading .valueOrEnd stack, l => stepValue stack l
  | .reading .key (.fields before _ :: stack), .scalar (.str k) => .reading .colon (.fields before k :: stack)
  | .reading .keyOrEnd (.fields before _ :: stack), .scalar (.str k) => .reading .colon (.fields before k :: stack)
  | .reading .keyOrEnd (.fields before _ :: stack), .closeObject => deliver (.obj before.reverse) stack
  | .reading .colon stack, .colon => .reading .value stack
  | .reading .colon stack, _ => failAtValue stack
  | .reading .more (.items before :: stack), .comma => .reading .value (.items before :: stack)
  | .reading .more (.items before :: stack), .closeArray => deliver (.arr before.reverse) stack
  | .reading .more (.fields before key :: stack), .comma => .reading .key (.fields before key :: stack)
  | .reading .more (.fields before _ :: stack), .closeObject => deliver (.obj before.reverse) stack
  | .reading _ stack, _ => .failed (breakOff stack)
  | p, _ => p

/-- What a text holds: a value, and whether nothing stands behind it. -/
structure Document where
  root : Json
  ends : Bool

/-- What has been read at the end of a text. -/
def Progress.close : Progress → Document
  | .complete v => ⟨v, true⟩
  | .trailing v => ⟨v, false⟩
  | .failed v => ⟨v, true⟩
  | .reading .value stack | .reading .valueOrEnd stack | .reading .colon stack => ⟨enclose .broken stack, true⟩
  | .reading _ stack => ⟨breakOff stack, true⟩

/-- Reads a text. -/
def read (cs : List Char) : Document :=
  ((lexemes cs).foldl Progress.step (.reading .value [])).close

/-- The value of a text without fault. -/
def parse? (s : String) : Option Json :=
  let d := read s.toList
  if d.ends && d.root.isWhole then some d.root else none

end Treebank.Json

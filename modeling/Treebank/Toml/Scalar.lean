import Treebank.Decimal.Numeral
import Treebank.Json.Reader

/-!
# Strings, numbers and dates of configuration texts

Strings come in four forms: between double quotes with escapes, between single quotes without, and both over several lines between
triple quotes. Numbers may have underscores between digits; integers may be hexadecimal, octal or binary.
-/

namespace Treebank.Toml

/-- Whether a character must not stand in a string or in a comment; a tab may. -/
def isControl (c : Char) : Bool := (c.toNat < 0x20 && c != '\t') || c.toNat = 0x7F

/-- The character that a letter behind a backslash stands for. -/
def escape? : Char → Option Char
  | 'b' => some '\x08'
  | 't' => some '\t'
  | 'n' => some '\n'
  | 'f' => some '\x0c'
  | 'r' => some '\r'
  | '"' => some '"'
  | '\\' => some '\\'
  | _ => none

/-- The character whose code point the first `n` characters write in hexadecimal digits, and what follows. -/
def codePoint? (n : Nat) (cs : List Char) : Option (Char × List Char) := do
  if cs.length < n then none
  else
    let v ← Json.hexValue? (cs.take n)
    if v.isValidChar then some (Char.ofNat v, cs.drop n) else none

/-- The characters that separate words on a line. -/
def isSpace (c : Char) : Bool := c = ' ' || c = '\t'

/-- The text behind a backslash at the end of a line: blanks and line feeds are passed over. -/
def joinLines? (cs : List Char) : Option (List Char) :=
  match cs.dropWhile isSpace with
  | [] => some []
  | '\n' :: rest => some (rest.dropWhile fun c => isSpace c || c = '\n')
  | _ => none

/-- The content of a string with escapes and the text behind its closing quotes, one or three. -/
def basicText (long : Bool) (cs : List Char) : Option (List Char × List Char) :=
  let again (front : List Char) (rest : List Char) : Option (List Char × List Char) :=
    if rest.length < cs.length then (basicText long rest).map fun (text, rest) => (front ++ text, rest) else none
  match cs with
  | [] => none
  | '"' :: rest =>
    if !long then some ([], rest)
    else
      match rest with
      | '"' :: '"' :: after => some ([], after)
      | _ => again ['"'] rest
  | '\\' :: 'u' :: rest => (codePoint? 4 rest).bind fun (c, rest) => again [c] rest
  | '\\' :: 'U' :: rest => (codePoint? 8 rest).bind fun (c, rest) => again [c] rest
  | '\\' :: c :: rest =>
    if long && (isSpace c || c = '\n') then (joinLines? (c :: rest)).bind (again [])
    else (escape? c).bind fun c => again [c] rest
  | c :: rest => if c = '\\' || (isControl c && !(long && c = '\n')) then none else again [c] rest
termination_by cs.length

/-- The content of a string without escapes and the text behind its closing quotes. -/
def literalText (long : Bool) : List Char → Option (List Char × List Char)
  | [] => none
  | '\'' :: rest =>
    if !long then some ([], rest)
    else
      match rest with
      | '\'' :: '\'' :: after => some ([], after)
      | _ => (literalText long rest).map fun (text, rest) => ('\'' :: text, rest)
  | c :: rest =>
    if isControl c && !(long && c = '\n') then none
    else (literalText long rest).map fun (text, rest) => (c :: text, rest)

/-- Behind the three closing quotes of a string up to two more quotes belong to it. -/
def extraQuotes (mark : Char) (text rest : List Char) : List Char × List Char :=
  let extra := (rest.take 2).takeWhile (· = mark)
  (text ++ extra, rest.drop extra.length)

/-- The text behind the opening quotes of a string of several lines: a line feed at once is passed over. -/
def dropFirstBreak : List Char → List Char
  | '\n' :: rest => rest
  | cs => cs

/-- Reads a string; `long` allows for the forms of several lines. -/
def string? (long : Bool) (cs : List Char) : Option (String × List Char) :=
  let pack (r : List Char × List Char) : String × List Char := (String.ofList r.1, r.2)
  match long, cs with
  | true, '"' :: '"' :: '"' :: rest =>
    (basicText true (dropFirstBreak rest)).map fun (text, rest) => pack (extraQuotes '"' text rest)
  | true, '\'' :: '\'' :: '\'' :: rest =>
    (literalText true (dropFirstBreak rest)).map fun (text, rest) => pack (extraQuotes '\'' text rest)
  | _, '"' :: rest => (basicText false rest).map pack
  | _, '\'' :: rest => (literalText false rest).map pack
  | _, _ => none

/-! ## Numbers -/

/-- A run of digits with single underscores between them, without these, and what follows. -/
def digitRun (isDigit : Char → Bool) : List Char → List Char × List Char
  | [] => ([], [])
  | '_' :: d :: cs =>
    if isDigit d then
      let (run, rest) := digitRun isDigit cs
      (d :: run, rest)
    else ([], '_' :: d :: cs)
  | c :: cs =>
    if isDigit c then
      let (run, rest) := digitRun isDigit cs
      (c :: run, rest)
    else ([], c :: cs)

/-- A run of digits that begins with a digit; empty if there is none. -/
def digits (isDigit : Char → Bool) (cs : List Char) : List Char × List Char :=
  if cs.head?.any isDigit then digitRun isDigit cs else ([], cs)

/-- The number that digits write in a base. -/
def valueIn (base : Nat) (cs : List Char) : Nat := cs.foldl (fun n c => base * n + (Json.hexDigit? c).getD 0) 0

/-- Whether a character is a digit in a base. -/
def isDigitIn (base : Nat) (c : Char) : Bool := (Json.hexDigit? c).any (· < base)

/-- Reads an integer in another base, behind its mark. -/
def basedInteger? (base : Nat) (cs : List Char) : Option (Json × List Char) :=
  let (run, rest) := digits (isDigitIn base) cs
  if run.isEmpty then none else some (.int (valueIn base run), rest)

/-- The fraction of a number, if there is one, and what follows. -/
def fraction (cs : List Char) : List Char × List Char :=
  match cs with
  | '.' :: after =>
    let (run, rest) := digits Text.isAsciiDigit after
    if run.isEmpty then ([], cs) else (run, rest)
  | _ => ([], cs)

/-- The exponent of a number, if there is one, and what follows. -/
def exponent? (cs : List Char) : Option Int × List Char :=
  match cs with
  | [] => (none, cs)
  | c :: after =>
    if c = 'e' || c = 'E' then
      let (negative, body) := Numeral.takeSign after
      let (run, rest) := digits Text.isAsciiDigit body
      let n : Int := Text.digitsValue run
      if run.isEmpty then (none, cs) else (some (if negative then -n else n), rest)
    else (none, cs)

/-- Reads a decimal number. -/
def decimal? (cs : List Char) : Option (Json × List Char) :=
  let (negative, body) := Numeral.takeSign cs
  let (whole, rest) :=
    match body with
    | '0' :: rest => (['0'], rest)
    | _ => digits Text.isAsciiDigit body
  if whole.isEmpty then none
  else
    let (part, rest) := fraction rest
    let (power, rest) := exponent? rest
    if part.isEmpty && power.isNone then
      let n : Int := Text.digitsValue whole
      some (.int (if negative then -n else n), rest)
    else some (.float (.ofDecimal negative (Text.digitsValue (whole ++ part)) (power.getD 0 - part.length)), rest)

/-- Reads a word for a number that is not finite. -/
def special? (cs : List Char) : Option (Json × List Char) :=
  let (negative, body) := Numeral.takeSign cs
  match body with
  | 'i' :: 'n' :: 'f' :: rest => some (.float (.infinite negative), rest)
  | 'n' :: 'a' :: 'n' :: rest => some (.float .notANumber, rest)
  | _ => none

/-- Reads a number. -/
def number? (cs : List Char) : Option (Json × List Char) :=
  let based :=
    match cs with
    | '0' :: 'x' :: rest => basedInteger? 16 rest
    | '0' :: 'o' :: rest => basedInteger? 8 rest
    | '0' :: 'b' :: rest => basedInteger? 2 rest
    | _ => none
  based.orElse fun _ => (decimal? cs).orElse fun _ => special? cs

/-! ## Dates -/

/-- Reads a number of two digits between bounds. -/
def pair? (low high : Nat) (cs : List Char) : Option (Nat × List Char) :=
  match cs with
  | a :: b :: rest =>
    let n := Text.digitsValue [a, b]
    if Text.isAsciiDigit a && Text.isAsciiDigit b && low ≤ n && n ≤ high then some (n, rest) else none
  | _ => none

/-- Passes one mark. -/
def pass? (mark : Char) : List Char → Option (List Char)
  | c :: rest => if c = mark then some rest else none
  | [] => none

/-- Passes a time of day. -/
def timeOfDay? (cs : List Char) : Option (List Char) := do
  let (_, rest) ← pair? 0 23 cs
  let (_, rest) ← pair? 0 59 (← pass? ':' rest)
  let (_, rest) ← pair? 0 59 (← pass? ':' rest)
  match rest with
  | '.' :: after => some (if (after.takeWhile Text.isAsciiDigit).isEmpty then rest else after.dropWhile Text.isAsciiDigit)
  | _ => some rest

/-- Passes the offset of a time zone, if there is one. -/
def zoneOffset (cs : List Char) : List Char :=
  match cs with
  | c :: rest =>
    if c = 'Z' || c = 'z' then rest
    else if c = '+' || c = '-' then
      (do
        let (_, rest) ← pair? 0 23 rest
        let (_, rest) ← pair? 0 59 (← pass? ':' rest)
        return rest).getD cs
    else cs
  | [] => []

/-- The number of days of a month. -/
def daysOf (year month : Nat) : Nat :=
  if month = 2 then (if year % 4 = 0 && (year % 100 != 0 || year % 400 = 0) then 29 else 28)
  else if [4, 6, 9, 11].contains month then 30 else 31

/-- Passes a date, with a time of day or without. A date that is in no calendar is refused. -/
def date? (cs : List Char) : Option (Option (List Char)) := do
  let year := cs.take 4
  if year.length < 4 || !year.all Text.isAsciiDigit then none
  else
    let (month, rest) ← pair? 1 12 (← pass? '-' (cs.drop 4))
    let (day, rest) ← pair? 1 31 (← pass? '-' rest)
    let y := Text.digitsValue year
    if y = 0 || day > daysOf y month then some none
    else
      match rest with
      | c :: after =>
        if c = 'T' || c = 't' || c = ' ' then some (some (((timeOfDay? after).map zoneOffset).getD rest)) else some (some rest)
      | [] => some (some [])

/-- Reads a date or a time of day; its text stands for it. -/
def moment? (cs : List Char) : Option (Option (Json × List Char)) :=
  let keep (rest : List Char) : Option (Json × List Char) := some (.str (String.ofList (cs.take (cs.length - rest.length))), rest)
  match date? cs with
  | some (some rest) => some (keep rest)
  | some none => some none
  | none => (timeOfDay? cs).map keep

end Treebank.Toml

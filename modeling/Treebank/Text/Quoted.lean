import Treebank.Text.Printable

/-!
# Quoted text

A text is quoted with single marks, unless it holds a single mark and no double one. Inside the quotes a backslash and the mark
itself stand behind a backslash, tab, line feed and carriage return are `\t`, `\n` and `\r`, and every other character that is not
printable is written by its code point with two, four or eight hexadecimal digits.
-/

namespace Treebank.Text

/-- The last `width` hexadecimal digits of a number. -/
def hexDigits (width n : Nat) : List Char :=
  let digits := Nat.toDigits 16 n
  List.replicate (width - digits.length) '0' ++ digits

/-- The mark that a text is quoted with. -/
def quoteMark (cs : List Char) : Char := if cs.contains '\'' && !cs.contains '"' then '"' else '\''

/-- A character inside quotes of the given mark. -/
def quoteChar (mark c : Char) : List Char :=
  if c = mark || c = '\\' then ['\\', c]
  else if c = '\t' then ['\\', 't']
  else if c = '\n' then ['\\', 'n']
  else if c = '\r' then ['\\', 'r']
  else if isPrintable c then [c]
  else if c.toNat < 0x100 then '\\' :: 'x' :: hexDigits 2 c.toNat
  else if c.toNat < 0x10000 then '\\' :: 'u' :: hexDigits 4 c.toNat
  else '\\' :: 'U' :: hexDigits 8 c.toNat

/-- A text in quotes. -/
def quoted (s : String) : String :=
  let mark := quoteMark s.toList
  String.ofList (mark :: s.toList.flatMap (quoteChar mark) ++ [mark])

/-- A list of texts, quoted, in brackets. -/
def quotedList (ss : List String) : String := "[" ++ ", ".intercalate (ss.map quoted) ++ "]"

/-- A list of named texts, both quoted, in braces. -/
def quotedPairs (ps : List (String × String)) : String :=
  "\x7b" ++ ", ".intercalate (ps.map fun (k, v) => quoted k ++ ": " ++ quoted v) ++ "\x7d"

end Treebank.Text

import Treebank.Text.Range

/-!
# Blanks, words and lines

The blanks are the characters of the Unicode property White_Space together with the four separators U+001C to U+001F.
U+200B and U+FEFF are no blanks. A text is cut into words at runs of blanks, and into lines at the line breaks: line
feed, carriage return, the two together, vertical tab, form feed, U+001C to U+001E, U+0085, U+2028 and U+2029.
-/

namespace Treebank.Text

/-- The blanks. -/
def blankRanges : List (Nat × Nat) :=
  [(0x09, 0x0D), (0x1C, 0x20), (0x85, 0x85), (0xA0, 0xA0), (0x1680, 0x1680), (0x2000, 0x200A), (0x2028, 0x2029),
   (0x202F, 0x202F), (0x205F, 0x205F), (0x3000, 0x3000)]

/-- Whether a character is a blank. -/
def isBlank (c : Char) : Bool := inRanges blankRanges c.toNat

/-- The text without its leading blanks. -/
def trimStart (cs : List Char) : List Char := cs.dropWhile isBlank

/-- The text without the trailing characters that satisfy `p`. -/
def dropEndWhile (p : Char → Bool) (cs : List Char) : List Char := (cs.reverse.dropWhile p).reverse

/-- The text without its leading and trailing blanks. -/
def trim (cs : List Char) : List Char := dropEndWhile isBlank (trimStart cs)

/-- Whether a text consists of blanks, or of nothing. -/
def isAllBlank (cs : List Char) : Bool := cs.all isBlank

/-- The words of a text: its maximal runs of characters that are no blanks. -/
def words : List Char → List (List Char)
  | [] => []
  | c :: cs =>
    if isBlank c then words cs
    else
      match cs with
      | [] => [[c]]
      | d :: _ =>
        if isBlank d then [c] :: words cs
        else
          match words cs with
          | [] => [[c]]
          | w :: ws => (c :: w) :: ws

/-- The first word of a text and what follows it, without the blanks between; nothing if the text has no word. -/
def firstWord? (cs : List Char) : Option (List Char × List Char) :=
  match trimStart cs with
  | [] => none
  | cs => some (cs.takeWhile (!isBlank ·), trimStart (cs.dropWhile (!isBlank ·)))

/-- The characters that end a line. -/
def isLineBreak (c : Char) : Bool :=
  inRanges [(0x0A, 0x0D), (0x1C, 0x1E), (0x85, 0x85), (0x2028, 0x2029)] c.toNat

/-- The lines of a text, without their line breaks. A break at the end of the text opens no further line. -/
def lines : List Char → List (List Char)
  | [] => []
  | '\r' :: '\n' :: cs => [] :: lines cs
  | c :: cs =>
    if isLineBreak c then [] :: lines cs
    else
      match lines cs with
      | [] => [[c]]
      | l :: ls => (c :: l) :: ls

/-- The text with each carriage return, alone or before a line feed, read as a line feed. -/
def unifyNewlines : List Char → List Char
  | [] => []
  | '\r' :: '\n' :: cs => '\n' :: unifyNewlines cs
  | c :: cs => (if c = '\r' then '\n' else c) :: unifyNewlines cs

/-- The lines of a stored file, which end at line feeds and carriage returns only. -/
def fileLines (cs : List Char) : List (List Char) := go (unifyNewlines cs)
where
  go : List Char → List (List Char)
    | [] => []
    | c :: cs =>
      if c = '\n' then [] :: go cs
      else
        match go cs with
        | [] => [[c]]
        | l :: ls => (c :: l) :: ls

end Treebank.Text

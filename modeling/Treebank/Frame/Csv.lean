import Treebank.Frame.Tokens
import Treebank.Text.Case

/-!
# Frames as separated values

A frame is written as a text with a line of names and a line for every row, with commas between the fields. An empty cell is an empty
field, an empty text is written as two quotes. A field that holds a comma, a quote or a line break stands in quotes, with every quote
in it doubled.

When a text is read, it is first cut into fields, each as it stands in the text with its quotes; a carriage return at the end of a
field is dropped only then, so that it does not matter whether the field before the end of a line stands in quotes. The types of the
columns are guessed from their fields; the texts of a token frame are taken as texts whatever they look like.
-/

namespace Treebank.Frame

/-! ## Writing -/

/-- A text as a field. -/
def fieldOfText (s : String) : List Char :=
  let cs := s.toList
  if cs.isEmpty || cs.any (fun c => c = ',' || c = '"' || c = '\n' || c = '\r') then
    '"' :: cs.flatMap (fun c => if c = '"' then ['"', '"'] else [c]) ++ ['"']
  else cs

/-- A cell as a field. -/
def Cell.field : Cell → List Char
  | empty => []
  | text s => fieldOfText s
  | c => (c.text?.getD "").toList

/-- Fields as a line. -/
def csvLine (fields : List (List Char)) : List Char := Text.joinWith [','] fields ++ ['\n']

/-- A frame as separated values. -/
def csv (f : Frame) : String :=
  String.ofList (csvLine (f.names.map fieldOfText) ++ f.rows.flatMap fun row => csvLine (row.map Cell.field))

/-! ## Fields -/

/-- A field as it stands in the text, with its quotes. -/
structure Field where
  chars : List Char
  deriving DecidableEq, Repr, Inhabited

namespace Field

/-- Whether nothing stands in a field; two quotes are something. -/
def isEmpty (f : Field) : Bool := f.chars.isEmpty

/-- Whether a field stands in quotes. -/
def isQuoted (f : Field) : Bool := f.chars.head? == some '"'

/-- A field without a carriage return at its end. -/
def dropReturn (f : Field) : Field := if f.chars.getLast? = some '\r' then ⟨f.chars.dropLast⟩ else f

/-- What stands between the quotes of a field, or in a field without quotes. -/
def inner (f : Field) : List Char := if f.isQuoted then f.chars.tail.dropLast else f.chars

end Field

/-- A text with each pair of quotes made one; a quote that stands alone is dropped. -/
def singleQuotes : List Char → List Char
  | '"' :: '"' :: cs => '"' :: singleQuotes cs
  | c :: cs => if c = '"' then singleQuotes cs else c :: singleQuotes cs
  | [] => []

namespace Field

/-- The text that a field writes. -/
def text (f : Field) : String := String.ofList (if f.isQuoted then singleQuotes f.inner else f.chars)

/-- The integer that a field writes. -/
def int? (f : Field) : Option Int :=
  let (negative, digits) :=
    match f.inner with
    | '-' :: cs => (true, cs)
    | cs => (false, cs)
  if digits.isEmpty || !digits.all Text.isAsciiDigit then none
  else some (if negative then -(Text.digitsValue digits : Int) else Text.digitsValue digits)

/-- The truth value that a field writes. -/
def bool? (f : Field) : Option Bool :=
  match String.ofList (Text.lower f.inner) with
  | "true" => some true
  | "false" => some false
  | _ => none

/-- Whether a text is an exponent, with a sign or without. -/
def isExponent : List Char → Bool
  | [] => false
  | c :: cs =>
    let digits := (Numeral.takeSign cs).2
    (c = 'e' || c = 'E') && !digits.isEmpty && digits.all Text.isAsciiDigit

/-- Whether a text is a number that is no integer by its form: it has a point or an exponent, or is one of two words. Digits before the
point are needed only if none follow it, and an exponent stands behind a point only if digits do. -/
def isFraction (cs : List Char) : Bool :=
  let body := (Numeral.takeSign cs).2
  let word := String.ofList body
  let whole := body.takeWhile Text.isAsciiDigit
  word = "inf" || word = "NaN" ||
    match body.dropWhile Text.isAsciiDigit with
    | '.' :: rest =>
      let fraction := rest.takeWhile Text.isAsciiDigit
      let behind := rest.dropWhile Text.isAsciiDigit
      if fraction.isEmpty then behind.isEmpty && !whole.isEmpty else behind.isEmpty || isExponent behind
    | rest => !whole.isEmpty && isExponent rest

/-- Whether a field writes a number, an integer or another. -/
def isNumber (f : Field) : Bool := f.int?.isSome || isFraction f.inner

/-- A field as a cell of a type. Two quotes are an empty text, and an empty cell among numbers. -/
def cell (f : Field) (type : DataType) : Cell :=
  if f.isEmpty then .empty
  else
    match type with
    | .int64 => .ofInt? f.int?
    | .boolean => (f.bool?.map Cell.bool).getD .empty
    | .float64 => ((Numeral.float? f.inner).map Cell.float).getD .empty
    | _ => .text f.text

end Field

/-! ## Reading -/

/-- What has been read of a text, everything the last first. -/
structure CsvDraft where
  rows : List (List Field) := []
  row : List Field := []
  chars : List Char := []
  /-- Whether the present field began with a quote. -/
  quoted : Bool := false
  /-- Whether a quote is open. -/
  inside : Bool := false

namespace CsvDraft

/-- Ends the present field. -/
def endField (d : CsvDraft) : CsvDraft :=
  { d with row := ⟨d.chars.reverse⟩ :: d.row, chars := [], quoted := false, inside := false }

/-- Whether nothing but carriage returns stands in the present line. -/
def isBlankLine (d : CsvDraft) : Bool := d.row.isEmpty && d.chars.all (· = '\r')

/-- Ends the present line; a blank one is passed over. -/
def endLine (d : CsvDraft) : CsvDraft :=
  if d.isBlankLine then { d with chars := [] }
  else
    let d := d.endField
    { d with rows := d.row.reverse :: d.rows, row := [] }

/-- Takes up one character. A quote at the start of a field opens it, and each further quote in it closes or opens it again; while it
is open, nothing ends it. In any other field a quote stands for itself. -/
def take (separator : Char) (d : CsvDraft) (c : Char) : CsvDraft :=
  if c = '"' && (d.quoted || d.chars.isEmpty) then { d with chars := c :: d.chars, quoted := true, inside := !d.inside }
  else if d.inside then { d with chars := c :: d.chars }
  else if c = separator then d.endField
  else if c = '\n' then d.endLine
  else { d with chars := c :: d.chars }

end CsvDraft

/-- A text without a mark of byte order in front. -/
def dropByteOrderMark : List Char → List Char
  | '\ufeff' :: cs => cs
  | cs => cs

/-- The lines of a text, each as its fields. -/
def csvRows (separator : Char) (text : String) : List (List Field) :=
  ((dropByteOrderMark text.toList).foldl (CsvDraft.take separator) {}).endLine.rows.reverse

/-- A line without a carriage return at its end. -/
def dropLineReturn : List Field → List Field
  | [] => []
  | [f] => [f.dropReturn]
  | f :: fs => f :: dropLineReturn fs

/-- Names made different, the names before them being given: to one that has been there its number is added. -/
def distinctNames (before : List String) : List String → List String
  | [] => []
  | name :: names =>
    let count := before.count name
    (if count = 0 then name else name ++ "_duplicated_" ++ String.ofList (Text.natDigits (count - 1))) ::
      distinctNames (name :: before) names

/-- The type of a column with the given fields. -/
def columnType (fields : List Field) : DataType :=
  let fields := fields.filter (!·.isEmpty)
  if fields.isEmpty then .text
  else if fields.all (·.int?.isSome) then .int64
  else if fields.all (·.bool?.isSome) then .boolean
  else if fields.all (·.isNumber) then .float64
  else .text

/-- The frame of a text, its first line being the names of the columns. The types are guessed from the fields as the lines hold them;
from each cell a carriage return at its end is dropped. -/
def ofCsv (separator : Char) (text : String) : Frame :=
  match csvRows separator text with
  | [] => ⟨[], []⟩
  | header :: rows =>
    let names := distinctNames [] ((dropLineReturn header).map fun f => String.ofList f.inner)
    let field (row : List Field) (number : Nat) : Field := (row[number]?).getD ⟨[]⟩
    let types := (List.range names.length).map fun number => columnType (rows.map fun row => field (dropLineReturn row) number)
    ⟨names.zip types, rows.map fun row => types.zipIdx.map fun (type, number) => (field row number).dropReturn.cell type⟩

/-- Whether a column of a token frame holds texts. -/
def isTextColumn (name : String) : Bool := tokenColumns.lookup name == some .text

/-- The frame in which the text columns of a token frame hold texts. -/
def withTexts (f : Frame) : Frame where
  columns := f.columns.map fun (name, type) => (name, if isTextColumn name then .text else type)
  rows := f.rows.map fun row => (f.named row).map fun (name, c) => if isTextColumn name then .ofText? c.text? else c

/-- Reads a token frame from separated values. -/
def scan (separator : Char) (text : String) : Except SchemaError Frame := do
  let f := ofCsv separator text
  checkSchema f.columns
  return f.withTexts

end Treebank.Frame

import Treebank.Graph.Basic

/-!
# Rows of sentences

A sentence is written with a row of ten columns for each token. A row stands for an ordinary token (`3`), for a surface word that
spans several tokens (`2-3`), or for an elided token behind an ordinary one (`2.1`). A column without content holds an underscore.
-/

namespace Treebank.Conllu

/-- What is wrong with a text. -/
inductive Fault where
  | columnCount (found : Nat)
  | commentsAlone
  | commentInside
  | rangeInvalid (id : String)
  | idDuplicate (id : String)
  | idInvalid (id : String)
  | headUnknown (head : String)
  | depsMalformed (entry : String)
  deriving DecidableEq, Repr

/-- The number of columns of a row. -/
def columnCount : Nat := 10

/-- The message of a fault. -/
def Fault.message : Fault → String
  | columnCount found => "Expected " ++ toString Conllu.columnCount ++ " columns, found " ++ toString found
  | commentsAlone => "Comment lines without tokens"
  | commentInside => "Comment inside a sentence"
  | rangeInvalid id => "Invalid range '" ++ id ++ "'"
  | idDuplicate id => "Duplicate token id '" ++ id ++ "'"
  | idInvalid id => "Invalid token id '" ++ id ++ "'"
  | headUnknown head => "Unknown head '" ++ head ++ "'"
  | depsMalformed entry => "Malformed DEPS entry '" ++ entry ++ "'"

/-- A fault at a line of a text; the line itself is kept where the fault is in its form. -/
structure FormatError where
  fault : Fault
  lineNumber : Nat
  line : String := ""
  deriving DecidableEq, Repr

/-- The message of an error. -/
def FormatError.message (e : FormatError) : String := "Line " ++ toString e.lineNumber ++ ": " ++ e.fault.message

/-- What a column without content holds. -/
def blank : String := "_"

/-- The content of a column. -/
def content (column : String) : String := if column = blank then "" else column

/-- A content as a column. -/
def column (content : String) : String := if content = "" then blank else content

/-- A row, column by column. -/
structure Row where
  lineNumber : Nat
  id : String
  form : String
  baseForm : String
  upos : String
  tag : String
  feats : String
  head : String
  relation : String
  deps : String
  misc : String
  deriving DecidableEq, Repr, Inhabited

/-- What the id of a row says. -/
inductive RowId where
  | ordinary (number : Nat)
  | span (start stop : Nat)
  | elided (host number : Nat)
  deriving DecidableEq, Repr

/-- The columns of a row behind its form. -/
def Row.tail (r : Row) : List String := [r.baseForm, r.upos, r.tag, r.feats, r.head, r.relation, r.deps, r.misc]

/-- The columns of a row. -/
def Row.columns (r : Row) : List String := r.id :: r.form :: r.tail

/-- The row of ten columns. -/
def Row.ofColumns? (lineNumber : Nat) : List String → Option Row
  | [id, form, baseForm, upos, tag, feats, head, relation, deps, misc] =>
    some
      { lineNumber := lineNumber, id := id, form := form, baseForm := baseForm, upos := upos, tag := tag, feats := feats, head := head,
        relation := relation, deps := deps, misc := misc }
  | _ => none

/-- A row as a line. -/
def Row.text (r : Row) : String := "\t".intercalate r.columns

end Treebank.Conllu

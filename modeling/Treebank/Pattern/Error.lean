import Treebank.Regex.Reader

/-!
# What may be wrong with a pattern

Every fault has a place, counted in characters from the start of the pattern. A pattern that stands in a batch also has a line.
-/

namespace Treebank.Pattern

/-- What is wrong. -/
inductive Fault where
  | blank
  | unexpected (found : Char)
  | expected (mark : Char) (found : Option Char)
  | descriptionMissing
  | entryUnended
  | attributeMissing
  | valueMissing (key : String)
  | nodeNameMissing
  | edgeNameMissing
  | nameOfBoth (name : String)
  | nodeUnderNegation (name : String)
  | edgeUnderNegation (name : String)
  | twoDescriptions (name : String)
  | relationMissing
  | negatedOptional
  | branchEmpty
  | operatorMissing
  | operatorUnknown (sign : String)
  | depthRefused (sign : String)
  | depthInvalid (low high : Nat)
  | labelRefused (sign : String)
  | regexOpen
  | regexInvalid (source : String)
  /-- A regular expression asks for something in vain. -/
  | regexBeyond (l : Regex.Limit)
  | shorthandUnknown (name : String)
  deriving DecidableEq, Repr

/-- The message of a fault. -/
def Fault.message : Fault → String
  | blank => "Empty pattern"
  | unexpected found => "Unexpected character '" ++ String.singleton found ++ "'"
  | expected mark found =>
    "Expected '" ++ String.singleton mark ++ "' but found '" ++ ((found.map String.singleton).getD "end of pattern") ++ "'"
  | descriptionMissing => "Expected '\x7b' to start a node description"
  | entryUnended => "Expected ';' or '\x7d' in node description"
  | attributeMissing => "Expected an attribute name"
  | valueMissing key => "Empty value for attribute '" ++ key ++ "'"
  | nodeNameMissing => "Expected a node name after '='"
  | edgeNameMissing => "Expected an edge name after '='"
  | nameOfBoth name => "Name '" ++ name ++ "' is used for both a node and an edge"
  | nodeUnderNegation name => "Node name '" ++ name ++ "' cannot be introduced under negation"
  | edgeUnderNegation name => "Edge name '" ++ name ++ "' cannot be introduced under negation"
  | twoDescriptions name => "Node name '" ++ name ++ "' has two different descriptions"
  | relationMissing => "Expected a relation after '&'"
  | negatedOptional => "A relation cannot be both negated and optional"
  | branchEmpty => "Empty branch in '[...]'"
  | operatorMissing => "Expected a relation operator"
  | operatorUnknown sign => "Unknown relation operator '" ++ sign ++ "'"
  | depthRefused sign => "Depth range not allowed on operator '" ++ sign ++ "'"
  | depthInvalid low high => "Invalid depth range " ++ toString low ++ "," ++ toString high
  | labelRefused sign => "Operator '" ++ sign ++ "' takes no relation label or edge name"
  | regexOpen => "Unterminated regular expression"
  | regexInvalid source => "Invalid regular expression /" ++ source ++ "/"
  | regexBeyond l => l.message
  | shorthandUnknown name => "Undefined macro '" ++ name ++ "'"

/-- Whether a fault lies in what a regular expression asks for, and not in how the pattern is written. -/
def Fault.isLimit : Fault → Bool
  | regexBeyond _ => true
  | _ => false

/-- A fault at its place in a pattern. -/
structure CompileError where
  fault : Fault
  /-- The line of the pattern, in a batch. -/
  line : Option Nat := none
  position : Nat
  pattern : String
  deriving DecidableEq, Repr

/-- What is wrong, with the line. -/
def CompileError.reason (e : CompileError) : String :=
  e.fault.message ++ ((e.line.map fun line => " on line " ++ toString line).getD "")

/-- The message of an error. -/
def CompileError.message (e : CompileError) : String :=
  e.reason ++ " at position " ++ toString e.position ++ " in pattern: " ++ e.pattern

end Treebank.Pattern

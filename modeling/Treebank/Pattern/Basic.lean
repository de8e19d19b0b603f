import Treebank.Edge
import Treebank.Regex.Search
import Treebank.Relation
import Treebank.Token.Basic

/-!
# Patterns

A pattern is a list of parts; each part is a description of a token and a constraint on what the token is related to. Tokens and
edges may be given names: places with one name are filled by one token, and edges with one name have one relation label. Every tree
can be written back as text.
-/

namespace Treebank

/-- Options of matching. -/
structure PatternOptions where
  /-- Attribute values are compared without regard to case. -/
  ignoreCase : Bool := false
  /-- A label also stands for the labels that it subsumes. -/
  hierarchical : Bool := false
  deriving DecidableEq, Repr, Inhabited

namespace Pattern

/-! ## Descriptions of tokens -/

/-- What an attribute has to be. -/
inductive Value where
  | literal (text : String)
  | regex (source : String) (regex : Regex)
  /-- Anything, but present. -/
  | any
  deriving DecidableEq, Repr

/-- One restriction of an attribute. -/
structure Test where
  key : String
  value : Value
  deriving DecidableEq, Repr

/-- Whether a restriction accepts the value of an attribute; one that is missing is never accepted. -/
def Test.accepts (t : Test) (ignoreCase : Bool) : Option String → Bool
  | none => false
  | some actual =>
    match t.value with
    | .any => true
    | .regex _ r => r.accepts ignoreCase actual
    | .literal text => if ignoreCase then Text.fold actual.toList == Text.fold text.toList else actual == text

/-- A restriction in writing. -/
def Test.text (t : Test) : String :=
  t.key ++ ":" ++
    match t.value with
    | .any => "__"
    | .regex source _ => "/" ++ source ++ "/"
    | .literal text => text

/-- A description: groups of restrictions, one group for each attribute, of which every group has to hold by some restriction. -/
structure Description where
  groups : List (String × List Test) := []
  root : Bool := false
  negated : Bool := false
  deriving DecidableEq, Repr, Inhabited

/-- Whether a description holds of every token. -/
def Description.isBlank (d : Description) : Bool := d.groups.isEmpty && !d.root && !d.negated

/-- Whether a description, but for its negation, holds of a token. -/
def Description.holds (d : Description) (ignoreCase isRoot : Bool) (t : Token) : Bool :=
  (!d.root || isRoot) && d.groups.all fun (key, tests) => tests.any (·.accepts ignoreCase (t.attribute? key))

/-- Whether a description accepts a token. -/
def Description.accepts (d : Description) (ignoreCase isRoot : Bool) (t : Token) : Bool := d.holds ignoreCase isRoot t != d.negated

/-- A description in writing. -/
def Description.text (d : Description) : String :=
  let entries := (if d.root then ["$"] else []) ++ d.groups.flatMap fun (_, tests) => tests.map Test.text
  (if d.negated then "!" else "") ++ "\x7b" ++ ";".intercalate entries ++ "\x7d"

/-! ## Relations -/

/-- Where a token stands relative to the one that the relation hangs from. -/
inductive Kind where
  | child
  | parent
  | descendant
  | ancestor
  | same
  | nextWord
  | rightNeighbour
  | leftNeighbour
  | rightSibling
  | leftSibling
  deriving DecidableEq, Repr

/-- The sign of a relation. -/
def Kind.sign : Kind → String
  | child => ">"
  | parent => "<"
  | descendant => ">>"
  | ancestor => "<<"
  | same => "=="
  | nextWord => "."
  | rightNeighbour => "$+"
  | leftNeighbour => "$-"
  | rightSibling => "$++"
  | leftSibling => "$--"

/-- All kinds of relations. -/
def Kind.all : List Kind :=
  [child, parent, descendant, ancestor, same, nextWord, rightNeighbour, leftNeighbour, rightSibling, leftSibling]

/-- The kind of a sign. -/
def Kind.ofSign? (sign : String) : Option Kind := Kind.all.find? (·.sign == sign)

/-- Whether a relation is one over edges, and so may have a label and a name. -/
def Kind.followsEdges : Kind → Bool
  | child | parent | descendant | ancestor => true
  | _ => false

/-- Whether a relation is one over paths, and so may have bounds on their length. -/
def Kind.isTransitive : Kind → Bool
  | descendant | ancestor => true
  | _ => false

/-- What the label of an edge has to be. -/
inductive Label where
  | any
  | exact (name : String)
  | regex (source : String) (regex : Regex)
  deriving DecidableEq, Repr

/-- Whether a label is accepted. -/
def Label.accepts (l : Label) (hierarchical : Bool) (relation : String) : Bool :=
  match l with
  | .any => true
  | .exact name => if hierarchical then Relation.subsumes name relation else relation == name
  | .regex _ r => r.accepts false relation

/-- A label in writing. -/
def Label.text : Label → String
  | .any => ""
  | .exact name => name
  | .regex source _ => "/" ++ source ++ "/"

/-- A relation with its label, the bounds on the length of its paths, and the name of its edge. Bounds of zero are no bounds. -/
structure Operator where
  kind : Kind
  label : Label := .any
  minDepth : Nat := 0
  maxDepth : Nat := 0
  edgeName : Option String := none
  deriving DecidableEq, Repr

/-- Whether the length of paths is bounded. -/
def Operator.isLimited (o : Operator) : Bool := o.maxDepth > 0

/-- A relation in writing. -/
def Operator.text (o : Operator) : String :=
  (if o.isLimited then toString o.minDepth ++ "," ++ toString o.maxDepth else "") ++ o.kind.sign ++ o.label.text ++
    ((o.edgeName.map ("=" ++ ·)).getD "")

/-! ## Trees -/

/-- A place for a token: its description and its name, if it has one. -/
structure Place where
  description : Description
  name : Option String := none
  deriving DecidableEq, Repr, Inhabited

/-- A place in writing. -/
def Place.text (p : Place) : String := p.description.text ++ ((p.name.map ("=" ++ ·)).getD "")

/-- Whether a constraint has to hold, must not hold, or may fail. -/
inductive Mode where
  | plain
  | negated
  | optional
  deriving DecidableEq, Repr, Inhabited

/-- The mark of a mode. -/
def Mode.mark : Mode → String
  | plain => ""
  | negated => "!"
  | optional => "?"

/-- A constraint on a token. -/
inductive Constraint where
  /-- The token is related to one that fits the place, and on which there may be a constraint in turn. -/
  | relation (mode : Mode) (operator : Operator) (target : Place) (inner : Option Constraint)
  /-- All of some constraints hold. -/
  | all (mode : Mode) (children : List Constraint)
  /-- Some constraint of several holds. -/
  | any (mode : Mode) (children : List Constraint)
  deriving Inhabited

/-- The mode of a constraint. -/
def Constraint.mode : Constraint → Mode
  | relation mode .. => mode
  | all mode _ => mode
  | any mode _ => mode

mutual
/-- A constraint in writing. -/
def Constraint.text : Constraint → String
  | .relation mode operator target none => mode.mark ++ operator.text ++ " " ++ target.text
  | .relation mode operator target (some inner) =>
    mode.mark ++ operator.text ++ " (" ++ target.text ++ " " ++ inner.text ++ ")"
  | .all mode children =>
    let body := " ".intercalate (texts children)
    match mode with
    | .plain => body
    | mode => mode.mark ++ "[" ++ body ++ "]"
  | .any mode children => mode.mark ++ "[" ++ " | ".intercalate (texts children) ++ "]"

/-- Constraints in writing. -/
def texts : List Constraint → List String
  | [] => []
  | c :: cs => c.text :: texts cs
end

/-- One part of a pattern. -/
structure Part where
  place : Place
  constraint : Option Constraint := none
  deriving Inhabited

/-- A part in writing. -/
def Part.text (p : Part) : String := p.place.text ++ ((p.constraint.map fun c => " " ++ c.text).getD "")

end Pattern

open Pattern in
/-- A pattern that was read from a text. -/
structure Pattern where
  /-- The text as it was given. -/
  source : String
  parts : List Part
  /-- The names of places, in the order in which they occur first. -/
  nodeNames : List String
  /-- The names of edges, in the order in which they occur first. -/
  edgeNames : List String
  options : PatternOptions
  deriving Inhabited

/-- A pattern in writing. -/
def Pattern.text (p : Pattern) : String := " : ".intercalate (p.parts.map Pattern.Part.text)

/-- The names of places and of edges. -/
def Pattern.captureNames (p : Pattern) : List String := p.nodeNames ++ p.edgeNames

end Treebank

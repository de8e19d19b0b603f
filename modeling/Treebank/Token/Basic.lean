import Treebank.Pairs
import Treebank.Text.Digit
import Treebank.Text.Pieces

/-!
# Tokens

A token is one word of a sentence. Its index is its identity; its position is its place in the line of words, which is the index
unless said otherwise. A token with a positive empty index is elided: it stands behind the token whose position it shares.
-/

namespace Treebank

/-- A token. -/
structure Token where
  index : Int
  word : String := ""
  baseForm : String := ""
  /-- The tag of the language at hand. -/
  tag : String := ""
  /-- The universal part of speech. -/
  upos : String := ""
  /-- The features as written, `Number=Sing|Person=3`. -/
  feats : String := ""
  misc : String := ""
  attrs : List (String × String) := []
  position : Int := index
  emptyIndex : Int := 0
  /-- The surface form of a span of tokens that starts at this one. -/
  spanForm : String := ""
  /-- The relation written beside a head that is no token, if the token was read from such a row. -/
  rootRelation : Option String := none
  /-- The relation of an enhanced edge that comes from no token. -/
  enhancedRootRelation : String := ""
  /-- The line that the token was read from; zero if it was not read. -/
  lineNumber : Int := 0
  deriving DecidableEq, Repr, Inhabited

namespace Token

/-- A token whose position is negative stands at its index. -/
def placed (t : Token) : Token := if t.position < 0 then { t with position := t.index } else t

/-- Whether a token is elided. -/
def isEmptyNode (t : Token) : Bool := t.emptyIndex > 0

/-- The key of the linear order: elided tokens stand behind their host. -/
def sortKey (t : Token) : Int × Int × Int := (t.position, t.emptyIndex, t.index)

/-- The linear order of tokens. -/
def cmp : Token → Token → Ordering :=
  compareLex (compareOn position) (compareLex (compareOn emptyIndex) (compareOn index))

/-- The features of a token by name; of two of one name, the last. -/
def features (t : Token) : List (String × String) :=
  (Text.splitOn '|' t.feats.toList).foldl (fun ps item =>
    match Text.splitFirst? '=' item with
    | some (key, value) => Pairs.put ps (String.ofList key) (String.ofList value)
    | none => ps) []

/-- A text, unless it is empty. -/
def nonEmpty? (s : String) : Option String := if s = "" then none else some s

/-- The field that an attribute name stands for. -/
def field? (t : Token) : String → Option String
  | "word" | "text" | "value" => some t.word
  | "lemma" => some t.baseForm
  | "tag" | "pos" | "xpos" => some t.tag
  | "upos" | "cpos" => some t.upos
  | "idx" | "index" => some (String.ofList (Text.intDigits t.index))
  | "position" => some (String.ofList (Text.intDigits t.position))
  | _ => none

/-- An attribute by name: a field, else an entry of the attribute map, else a feature. An empty value counts as missing. -/
def attribute? (t : Token) (key : String) : Option String :=
  match t.field? key with
  | some value => nonEmpty? value
  | none =>
    match (t.attrs.lookup key).bind nonEmpty? with
    | some value => some value
    | none => (t.features.lookup key).bind nonEmpty?

/-- The word, with its tag if asked for. -/
def label (t : Token) (showTags : Bool) : String := if showTags then t.word ++ "/" ++ t.tag else t.word

/-- The word with its index. -/
def text (t : Token) : String := t.word ++ "-" ++ String.ofList (Text.intDigits t.index)

end Token

/-- A surface word that spans several tokens and is no token itself. The columns behind its form are kept as they were read. -/
structure Multiword where
  start : Int
  stop : Int
  form : String
  columns : List String := []
  deriving DecidableEq, Repr, Inhabited

end Treebank

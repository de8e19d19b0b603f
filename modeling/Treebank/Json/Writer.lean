import Treebank.Decimal.Shortest
import Treebank.Json.Basic
import Treebank.Text.Quoted

/-!
# Writing JSON

Values are written over several lines: each item and each field on a line of its own, indented by two blanks for every array and
object around it. Characters beyond ASCII stand for themselves. A number that is not finite is written as null.
-/

namespace Treebank.Json

/-- The layout of numbers in JSON: positional from `0.00001` up to below `10 ^ 16`, and otherwise with the shortest exponent. -/
def numberLayout : Binary64.Layout where
  plainFrom := -5
  plainBelow := 16
  exponentPlus := false
  exponentWidth := 1

/-- A number, or null for one that is not finite. -/
def renderFloat : Binary64 → List Char
  | .finite n m q => Binary64.renderIn numberLayout (.finite n m q)
  | _ => ['n', 'u', 'l', 'l']

/-- A character inside a string. -/
def renderChar (c : Char) : List Char :=
  if c = '"' || c = '\\' then ['\\', c]
  else if c = '\x08' then ['\\', 'b']
  else if c = '\x0c' then ['\\', 'f']
  else if c = '\n' then ['\\', 'n']
  else if c = '\r' then ['\\', 'r']
  else if c = '\t' then ['\\', 't']
  else if c.toNat < 0x20 then '\\' :: 'u' :: Text.hexDigits 4 c.toNat
  else [c]

/-- A string in quotes. -/
def renderText (s : String) : List Char := '"' :: s.toList.flatMap renderChar ++ ['"']

/-- A new line at the given depth. -/
def newLine (depth : Nat) : List Char := '\n' :: List.replicate (2 * depth) ' '

mutual
/-- A value at the given depth. -/
def render (depth : Nat) : Json → List Char
  | null => ['n', 'u', 'l', 'l']
  | bool true => ['t', 'r', 'u', 'e']
  | bool false => ['f', 'a', 'l', 's', 'e']
  | int n => Text.intDigits n
  | float x => renderFloat x
  | str s => renderText s
  | arr [] => ['[', ']']
  | arr (v :: vs) => '[' :: newLine (depth + 1) ++ render (depth + 1) v ++ renderItems (depth + 1) vs ++ newLine depth ++ [']']
  | obj [] => ['{', '}']
  | obj ((k, v) :: fs) =>
    '{' :: newLine (depth + 1) ++ renderText k ++ ':' :: ' ' :: render (depth + 1) v ++ renderFields (depth + 1) fs ++
      newLine depth ++ ['}']
  | broken => []

/-- The items of an array behind the first. -/
def renderItems (depth : Nat) : List Json → List Char
  | [] => []
  | v :: vs => ',' :: newLine depth ++ render depth v ++ renderItems depth vs

/-- The fields of an object behind the first. -/
def renderFields (depth : Nat) : List (String × Json) → List Char
  | [] => []
  | (k, v) :: fs => ',' :: newLine depth ++ renderText k ++ ':' :: ' ' :: render depth v ++ renderFields depth fs
end

mutual
/-- A value on one line, without blanks. -/
def renderFlat : Json → List Char
  | arr items => '[' :: flatItems items ++ [']']
  | obj fields => '{' :: flatFields fields ++ ['}']
  | v => render 0 v

/-- The items of an array on one line. -/
def flatItems : List Json → List Char
  | [] => []
  | [v] => renderFlat v
  | v :: vs => renderFlat v ++ ',' :: flatItems vs

/-- The fields of an object on one line. -/
def flatFields : List (String × Json) → List Char
  | [] => []
  | [(k, v)] => renderText k ++ ':' :: renderFlat v
  | (k, v) :: fs => renderText k ++ ':' :: renderFlat v ++ ',' :: flatFields fs
end

/-- The text of a value. -/
def text (v : Json) : String := String.ofList (v.render 0)

end Treebank.Json

import Treebank.Decimal.Numeral
import Treebank.Regex.Escape
import Treebank.Text.Identifier
import Treebank.Text.Pieces

/-!
# Reading regular expressions

A text is read construct by construct, with a stack of the groups that are still open. Reading fails where a group or a set is not
closed or not opened, where there is nothing to repeat, where a name, a range or a number makes no sense, where a group is meant
that is not there or not closed yet, and where the width of what is to stand before a place is not fixed. Alternatives are read so
that what all of them begin with stands before them, and alternatives of one character each become a set.
-/

namespace Treebank

namespace Regex

/-- What a regular expression may ask for in vain. -/
inductive Limit where
  /-- A bound of a repetition is too large. -/
  | hugeCount
  /-- ASCII characters alone and those of all scripts are asked for at once. -/
  | scriptsClash
  deriving DecidableEq, Repr

/-- The message of a limit. -/
def Limit.message : Limit → String
  | hugeCount => "the repetition number is too large"
  | scriptsClash => "ASCII and UNICODE flags are incompatible"

/-- Why a text is not taken for a regular expression. -/
inductive Refusal where
  /-- It is none. -/
  | malformed
  | limit (l : Limit)
  deriving DecidableEq, Repr

/-- The bounds of repetitions lie below this number. -/
def countLimit : Nat := 4294967295

/-- What is wrong with a text of which nothing was read. -/
def orMalformed {α : Type} (a : Option α) : Except Refusal α :=
  match a with
  | some a => .ok a
  | none => .error .malformed

/-- What an opening parenthesis stands for. -/
inductive Opening where
  | plain
  | capture (number : Nat)
  | atomic
  | scoped (change : ModeChange)
  | ahead (negated : Bool)
  /-- `outermost`: no other assertion about what stands before is around this one. -/
  | behind (negated : Bool) (outermost : Bool)
  | ifGroup (number : Nat)
  deriving DecidableEq, Repr

/-- What a quantifier behind an expression would mean. -/
inductive Grip where
  | repeatable
  /-- A place, which cannot be repeated. -/
  | place
  /-- A repetition, which cannot be repeated again. -/
  | repetition
  deriving DecidableEq, Repr

/-- The switches that change how a text is read. -/
structure Switches where
  everyLine : Bool := false
  lineFeeds : Bool := false
  /-- Blanks and comments are passed over. -/
  spaced : Bool := false
  deriving DecidableEq, Repr

/-- A group that is open: its earlier alternatives and the expressions of the present one, the last first. -/
structure Level where
  opening : Opening
  /-- The switches around the group. -/
  outside : Switches
  branches : List (List Node) := []
  items : List (Node × Grip) := []
  deriving Repr

/-- What has been read of a regular expression. -/
structure Draft where
  /-- The open group that is read at present. -/
  top : Level := { opening := .plain, outside := {} }
  /-- The open groups around it, the innermost first. -/
  outer : List Level := []
  switches : Switches := {}
  /-- The mode in which the whole is to be matched. -/
  mode : Mode := {}
  /-- The characters of all scripts are asked for. -/
  allScripts : Bool := false
  /-- Repetitions are refused. -/
  onceOnly : Bool := false
  /-- The number of capturing groups so far. -/
  groups : Nat := 0
  names : List (String × Nat) := []
  /-- The widths of the groups that are closed. -/
  widths : List (Nat × Width) := []
  /-- Inside an assertion about what stands before: the number of groups before it. -/
  limit : Option Nat := none
  /-- The group numbers that conditions ask for. -/
  wanted : List Nat := []
  /-- Something has been repeated. -/
  repeats : Bool := false
  /-- The width of something that is to stand before a place is not fixed. -/
  unfixed : Bool := false
  deriving Repr

/-! ## Alternatives -/

/-- Expressions after each other. -/
def sequence : List Node → Node
  | [] => .empty
  | [a] => a
  | a :: as => .seq a (sequence as)

/-- The expressions that an expression puts after each other. -/
def Node.parts : Node → List Node
  | .empty => []
  | .seq a b => a.parts ++ b.parts
  | a => [a]

/-- Whether an expression has no expression inside. -/
def Node.isLeaf : Node → Bool
  | .char _ | .notChar _ | .any _ | .set .. | .backref _ | .lineStart _ | .lineEnd _ | .textStart | .textEnd | .wordBorder _ => true
  | _ => false

/-- The leaves that all alternatives begin with, and what is left of the alternatives; `first` is the first of them. -/
def commonStart (first : List Node) (others : List (List Node)) : List Node × List (List Node) :=
  match first with
  | [] => ([], [] :: others)
  | a :: as =>
    if a.isLeaf && others.all (·.head? == some a) then
      let (start, rest) := commonStart as (others.map List.tail)
      (a :: start, rest)
    else ([], (a :: as) :: others)

/-- An alternative of one character as the items of a set. -/
def characters? : List Node → Option (List SetItem)
  | [.char c] => some [.code c.toNat]
  | [.set false items] => some items
  | _ => none

/-- The first of some expressions that matches. -/
def firstOf : List Node → Node
  | [] => .empty
  | [a] => a
  | a :: as => .alt a (firstOf as)

/-- A choice between alternatives. -/
def choice : List (List Node) → Node
  | [] => .empty
  | [a] => sequence a
  | a :: as =>
    let (start, rest) := commonStart a as
    let tail : Node := match rest.mapM characters? with
      | some items => .set false items.flatten.eraseDups
      | none => firstOf (rest.map sequence)
    sequence (start ++ [tail])

/-- The present alternative of a group. -/
def Level.branch (l : Level) : List Node := l.items.reverse.flatMap (·.1.parts)

/-- The alternatives of a group. -/
def Level.all (l : Level) : List (List Node) := (l.branch :: l.branches).reverse

namespace Draft

/-- Adds an expression. -/
def push (d : Draft) (node : Node) (grip : Grip) : Draft := { d with top := { d.top with items := (node, grip) :: d.top.items } }

/-- Opens a group. -/
def enter (d : Draft) (opening : Opening) : Draft :=
  { d with top := { opening := opening, outside := d.switches }, outer := d.top :: d.outer }

/-- Whether a group is closed, and before an assertion that is being read about what stands before. -/
def mayRefer (d : Draft) (number : Nat) : Bool :=
  (d.widths.lookup number).isSome && d.limit.all (number ≤ ·)

/-- The widths of the groups. -/
def groupWidth (d : Draft) (number : Nat) : Width := (d.widths.lookup number).getD ⟨0, some 0⟩

/-- The expression that a group stands for. -/
def closed? (d : Draft) : Option Node :=
  let body := choice d.top.all
  match d.top.opening with
  | .plain => some body
  | .capture n => some (.group n body)
  | .atomic => some (.atomic body)
  | .scoped change => some (.scoped change body)
  | .ahead negated => some (.ahead negated body)
  | .behind negated _ => some (.behind negated (body.width d.groupWidth).least body)
  | .ifGroup n =>
    match d.top.all with
    | [a] => some (.ifGroup n (sequence a) .empty)
    | [a, b] => some (.ifGroup n (sequence a) (sequence b))
    | _ => none

/-- Whether the width of the present group is as it has to be. -/
def isFixed (d : Draft) : Bool :=
  match d.top.opening with
  | .behind .. =>
    let width := (choice d.top.all).width d.groupWidth
    width.most = some width.least && width.least ≤ countLimit
  | _ => true

/-- Closes a group. -/
def leave? (d : Draft) : Option Draft := do
  let node ← d.closed?
  match d.outer with
  | [] => none
  | level :: outer =>
    let widths := match d.top.opening with
      | .capture n => (n, (choice d.top.all).width d.groupWidth) :: d.widths
      | _ => d.widths
    let limit := match d.top.opening with
      | .behind _ true => none
      | _ => d.limit
    let after : Draft :=
      { d with
        top := level
        outer := outer
        switches := d.top.outside
        widths := widths
        limit := limit
        unfixed := d.unfixed || !d.isFixed }
    return after.push node .repeatable

/-- Repeats the last expression. -/
def repeatLast? (d : Draft) (least : Nat) (most : Option Nat) (rest : List Char) : Option (Draft × List Char) :=
  match d.top.items with
  | (node, .repeatable) :: items =>
    let put (node : Node) : Draft := { d with top := { d.top with items := (node, .repetition) :: items }, repeats := true }
    match rest with
    | '?' :: rest => some (put (.repeated least most false node), rest)
    | '+' :: rest => some (put (.atomic (.repeated least most true node)), rest)
    | rest => some (put (.repeated least most true node), rest)
  | _ => none

/-- Reads the bounds of a repetition in braces; without an end of the braces the opening one stands for itself. -/
def braces (d : Draft) (cs : List Char) : Except Refusal (Draft × List Char) :=
  let low := cs.takeWhile Text.isAsciiDigit
  let literal := .ok (d.push (.char '\x7b') .repeatable, cs)
  let bounded (high : List Char) (rest : List Char) : Except Refusal (Draft × List Char) :=
    let least := Text.digitsValue low
    let most := if high.isEmpty then none else some (Text.digitsValue high)
    if least ≥ countLimit || most.any (· ≥ countLimit) then .error (.limit .hugeCount)
    else orMalformed (if most.all (least ≤ ·) then d.repeatLast? least most rest else none)
  match cs, cs.dropWhile Text.isAsciiDigit with
  | '}' :: _, _ => literal
  | _, '}' :: rest => bounded low rest
  | _, ',' :: after =>
    match after.dropWhile Text.isAsciiDigit with
    | '}' :: rest => bounded (after.takeWhile Text.isAsciiDigit) rest
    | _ => literal
  | _, _ => literal

/-- A name up to a closing mark, and what follows the mark. -/
def name? (mark : Char) (cs : List Char) : Option (String × List Char) := do
  let (name, rest) ← Text.splitFirst? mark cs
  if Text.isIdentifier name then some (String.ofList name, rest) else none

/-- Opens a group that captures, with a name or without. -/
def capture? (d : Draft) (name : Option String) : Option Draft :=
  let number := d.groups + 1
  let d := { d with groups := number }
  match name with
  | none => some (d.enter (.capture number))
  | some name =>
    if (d.names.lookup name).isSome then none
    else some ({ d with names := (name, number) :: d.names }.enter (.capture number))

/-- Opens an assertion about what stands before. -/
def enterBehind (d : Draft) (negated : Bool) : Draft :=
  { d with limit := some (d.limit.getD d.groups) }.enter (.behind negated d.limit.isNone)

/-- The letters that switch something on or off. -/
def isSwitch (c : Char) : Bool := "aimstux".toList.contains c

/-- Sets the switches of some letters. -/
def setSwitches (on : Bool) (letters : List Char) (s : Switches) : Switches where
  everyLine := if letters.contains 'm' then on else s.everyLine
  lineFeeds := if letters.contains 's' then on else s.lineFeeds
  spaced := if letters.contains 'x' then on else s.spaced

/-- Sets the switches of some letters for the whole expression. -/
def switchAll (on : List Char) (d : Draft) : Draft :=
  { d with
    switches := setSwitches true on d.switches
    mode := ⟨d.mode.fold || on.contains 'i', d.mode.ascii || on.contains 'a'⟩
    allScripts := d.allScripts || on.contains 'u'
    onceOnly := d.onceOnly || on.contains 't' }

/-- How the letters before and behind a minus sign change the mode. -/
def modeChange (on off : List Char) : ModeChange where
  fold := if on.contains 'i' then some true else if off.contains 'i' then some false else none
  ascii := if on.contains 'a' then some true else if on.contains 'u' then some false else none

/-- Reads switches: for the whole expression, at its start only, or for one group. -/
def switch? (d : Draft) (cs : List Char) : Option (Draft × List Char) :=
  let on := cs.takeWhile isSwitch
  let enterScope (off rest : List Char) : Option (Draft × List Char) :=
    if on.contains 't' || off.any (fun c => c = 'a' || c = 'u' || c = 't' || on.contains c) then none
    else
      let d := d.enter (.scoped (modeChange on off))
      some ({ d with switches := setSwitches false off (setSwitches true on d.switches) }, rest)
  if on.contains 'a' && on.contains 'u' then none
  else
    match cs.dropWhile isSwitch with
    | ')' :: rest =>
      if d.outer.isEmpty && d.top.items.isEmpty && d.top.branches.isEmpty && !on.isEmpty then some (switchAll on d, rest) else none
    | ':' :: rest => if on.isEmpty then none else enterScope [] rest
    | '-' :: after =>
      let off := after.takeWhile isSwitch
      match after.dropWhile isSwitch with
      | ':' :: rest => if off.isEmpty then none else enterScope off rest
      | _ => none
    | _ => none

/-- Group numbers lie below this number. -/
def groupLimit : Int := 1073741823

/-- Reads a condition on a group, by name or by number. -/
def condition? (d : Draft) (cs : List Char) : Option (Draft × List Char) := do
  let (text, rest) ← Text.splitFirst? ')' cs
  if Text.isIdentifier text then
    let number ← d.names.lookup (String.ofList text)
    if d.limit.isSome && !d.mayRefer number then none else some (d.enter (.ifGroup number), rest)
  else
    let number ← Numeral.int? text
    if number ≤ 0 || number ≥ groupLimit || (d.limit.isSome && !d.mayRefer number.toNat) then none
    else some ({ d with wanted := number.toNat :: d.wanted }.enter (.ifGroup number.toNat), rest)

/-- What follows the first mark that has no backslash before it. -/
def afterMark? (mark : Char) : List Char → Option (List Char)
  | [] => none
  | '\\' :: _ :: cs => afterMark? mark cs
  | c :: cs => if c = mark then some cs else afterMark? mark cs

/-- Reads what stands behind an opening parenthesis. -/
def parenthesis? (d : Draft) (cs : List Char) : Option (Draft × List Char) :=
  match cs with
  | '?' :: 'P' :: '<' :: cs => do
    let (name, rest) ← name? '>' cs
    return (← d.capture? (some name), rest)
  | '?' :: 'P' :: '=' :: cs => do
    let (name, rest) ← name? ')' cs
    let number ← d.names.lookup name
    if d.mayRefer number then some (d.push (.backref number) .repeatable, rest) else none
  | '?' :: ':' :: rest => some (d.enter .plain, rest)
  | '?' :: '#' :: cs => (afterMark? ')' cs).map (d, ·)
  | '?' :: '=' :: rest => some (d.enter (.ahead false), rest)
  | '?' :: '!' :: rest => some (d.enter (.ahead true), rest)
  | '?' :: '<' :: '=' :: rest => some (d.enterBehind false, rest)
  | '?' :: '<' :: '!' :: rest => some (d.enterBehind true, rest)
  | '?' :: '(' :: cs => d.condition? cs
  | '?' :: '>' :: rest => some (d.enter .atomic, rest)
  | '?' :: cs => d.switch? cs
  | cs => (d.capture? none).map (·, cs)

/-- A backreference or an octal code; `c` is the first digit. -/
def number? (d : Draft) (c : Char) (cs : List Char) : Option (Draft × List Char) :=
  let octal (digits : List Char) : Option (Draft × List Char) :=
    let n := octalValue (c :: digits)
    if n > 255 then none else some (d.push (Atom.code n).node .repeatable, cs.drop digits.length)
  let refer (digits : List Char) : Option (Draft × List Char) :=
    let number := Text.digitsValue (c :: digits)
    if d.mayRefer number then some (d.push (.backref number) .repeatable, cs.drop digits.length) else none
  if c = '0' then octal ((cs.take 2).takeWhile isOctalDigit)
  else
    let next := (cs.take 2).takeWhile Text.isAsciiDigit
    if next.length = 2 && (c :: next).all isOctalDigit then octal next else refer (next.take 1)

/-- An escape outside a set. -/
def escape? (d : Draft) (c : Char) (cs : List Char) : Option (Draft × List Char) :=
  match c with
  | 'A' => some (d.push .textStart .place, cs)
  | 'Z' => some (d.push .textEnd .place, cs)
  | 'b' => some (d.push (.wordBorder false) .place, cs)
  | 'B' => some (d.push (.wordBorder true) .place, cs)
  | _ =>
    if Text.isAsciiDigit c then d.number? c cs
    else (commonEscape? c cs).map fun (atom, rest) => (d.push atom.node .repeatable, rest)

/-- A set behind its opening bracket. -/
def set? (d : Draft) (cs : List Char) : Option (Draft × List Char) :=
  let (negated, body) := match cs with
    | '^' :: rest => (true, rest)
    | _ => (false, cs)
  (setItems? [] body).map fun (items, rest) => (d.push (setNode negated items) .repeatable, rest)

/-- Reads one construct, not in braces, that begins with the given character. -/
def step? (d : Draft) (c : Char) (cs : List Char) : Option (Draft × List Char) :=
  match c with
  | '\\' =>
    match cs with
    | [] => none
    | e :: rest => d.escape? e rest
  | '[' => d.set? cs
  | '(' => d.parenthesis? cs
  | ')' => d.leave?.map (·, cs)
  | '|' => some ({ d with top := { d.top with branches := d.top.branch :: d.top.branches, items := [] } }, cs)
  | '*' => d.repeatLast? 0 none cs
  | '+' => d.repeatLast? 1 none cs
  | '?' => d.repeatLast? 0 (some 1) cs
  | '.' => some (d.push (.any d.switches.lineFeeds) .repeatable, cs)
  | '^' => some (d.push (.lineStart d.switches.everyLine) .place, cs)
  | '$' => some (d.push (.lineEnd d.switches.everyLine) .place, cs)
  | _ =>
    if d.switches.spaced && " \t\n\r\x0b\x0c".toList.contains c then some (d, cs)
    else if d.switches.spaced && c = '#' then some (d, (afterMark? '\n' cs).getD [])
    else some (d.push (.char c) .repeatable, cs)

/-- What is wrong with the text that was read, now that it is at its end. A clash of scripts comes before other faults of the
whole. -/
def check (d : Draft) (unopened : Bool) : Except Refusal Draft :=
  if !d.outer.isEmpty then .error .malformed
  else if d.mode.ascii && d.allScripts then .error (.limit .scriptsClash)
  else if unopened || d.wanted.any (d.groups < ·) || d.unfixed || (d.onceOnly && d.repeats) then .error .malformed
  else .ok d

/-- Reads to the end of the text, or to a closing parenthesis too many. -/
def finish (d : Draft) (cs : List Char) : Except Refusal Draft :=
  match cs with
  | [] => d.check false
  | c :: cs =>
    if c = ')' && d.outer.isEmpty then d.check true
    else
      match if c = '\x7b' then d.braces cs else orMalformed (d.step? c cs) with
      | .error e => .error e
      | .ok (d, rest) => if rest.length ≤ cs.length then finish d rest else .error .malformed
termination_by cs.length
decreasing_by exact Nat.lt_succ_of_le (by assumption)

end Draft

end Regex

/-- Reads a regular expression. -/
def Regex.compile (source : String) : Except Regex.Refusal Regex := do
  let d ← Regex.Draft.finish {} source.toList
  return { node := ← Regex.orMalformed d.closed?, mode := d.mode }

end Treebank

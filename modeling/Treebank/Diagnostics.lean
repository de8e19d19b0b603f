import Treebank.Json.Basic
import Treebank.Order
import Treebank.Pairs
import Treebank.Decimal.Shortest
import Treebank.Text.Quoted

/-!
# Diagnostics

A sink collects what happened during a call: records in the order in which they came, counters, and the times of stages. There is no
sink that outlives a call; an operation that records takes a sink and gives it back.
-/

namespace Treebank

namespace Diagnostics

/-- How grave a record is. -/
inductive Level where
  | debug
  | info
  | warning
  | error
  deriving DecidableEq, Repr, Inhabited

/-- The name of a level. -/
def Level.name : Level → String
  | debug => "debug"
  | info => "info"
  | warning => "warning"
  | error => "error"

/-- The level of a name. -/
def Level.ofName? (name : String) : Option Level := [debug, info, warning, error].find? (·.name == name)

/-- One event, with a short code and named values that say more. -/
structure Event where
  level : Level
  code : String
  message : String
  context : List (String × Json) := []
  deriving Inhabited

/-- A stage: when it began, when it ended if it has, and its failure if it failed. -/
structure Stage where
  name : String
  start : Binary64
  stop : Option Binary64 := none
  failure : Option String := none
  deriving DecidableEq, Repr, Inhabited

/-- The duration of a stage in milliseconds; nothing while it is open. -/
def Stage.duration? (s : Stage) : Option Binary64 := s.stop.map fun stop => (stop.sub s.start).thousandfold

/-- The duration of a stage in writing; a zero without a point while it is open. -/
def Stage.durationText (s : Stage) : String := (s.duration?.map Binary64.text).getD "0"

/-- A stage in one line of a summary. -/
def Stage.text (s : Stage) : String :=
  "stage " ++ s.name ++ ": " ++ (s.duration?.getD (.zero false)).renderTenths ++ "ms " ++
    match s.failure with
    | some failure => "failed (" ++ failure ++ ")"
    | none => "ok"

end Diagnostics

open Diagnostics in
/-- A sink. -/
structure Sink where
  id : String := "dx"
  events : List Event := []
  counters : List (String × Int) := []
  stages : List Stage := []
  deriving Inhabited

/-- A computation that records into a sink, and goes on having recorded when it fails. -/
abbrev Recorded (ε α : Type) := ExceptT ε (StateM Sink) α

namespace Sink

open Diagnostics

/-- Adds a record. -/
def emit (s : Sink) (e : Event) : Sink := { s with events := s.events ++ [e] }

/-- Adds to a counter, which begins at zero. -/
def increment (s : Sink) (counter : String) (amount : Int) : Sink :=
  { s with counters := Pairs.put s.counters counter ((s.counters.lookup counter).getD 0 + amount) }

/-- Begins a stage. -/
def openStage (s : Sink) (name : String) (time : Binary64) : Sink :=
  { s with stages := s.stages ++ [{ name := name, start := time }] }

/-- Ends the stage of the given number. -/
def closeStage (s : Sink) (number : Nat) (time : Binary64) (failure : Option String) : Sink :=
  { s with stages := s.stages.modify number fun stage => { stage with stop := some time, failure := failure } }

/-- The records of a level. -/
def ofLevel (s : Sink) (level : Level) : List Event := s.events.filter (·.level == level)

/-- The records with a code. -/
def ofCode (s : Sink) (code : String) : List Event := s.events.filter (·.code == code)

/-- Whether there is no warning and no error. -/
def isClean (s : Sink) : Bool := (s.ofLevel .warning).isEmpty && (s.ofLevel .error).isEmpty

/-- The durations of the stages, in milliseconds rounded to tenths; of two stages of one name the last counts. -/
def durations (s : Sink) : List (String × String) :=
  Pairs.putAll [] (s.stages.map fun stage =>
    (stage.name, (stage.duration?.map fun d => d.roundTenths.text).getD "0"))

/-- A mark at the start of a line of a summary, in a colour if asked for. -/
def mark (colour : Option String) (name : String) : String :=
  match colour with
  | some code => "\x1b[" ++ code ++ "m[" ++ name ++ "]\x1b[0m"
  | none => "[" ++ name ++ "]"

/-- A summary in several lines. -/
def summary (s : Sink) (coloured : Bool) : String :=
  let sign (code name : String) := mark (if coloured then some code else none) name
  let warnings := s.ofLevel .warning
  let errors := s.ofLevel .error
  let head :=
    if s.isClean then [sign "92" "CLEAN" ++ " No warnings or errors"]
    else
      (sign "91" "WARN" ++ " " ++ toString warnings.length ++ " warning(s), " ++ toString errors.length ++ " error(s)") ::
        (warnings ++ errors).map fun e => sign "91" "WARN" ++ "   " ++ e.code ++ ": " ++ e.message
  let counters := (Order.sortBy (compareOn (·.1)) s.counters).map fun (name, value) =>
    sign "94" "INFO" ++ " " ++ name ++ "=" ++ toString value
  let stages := s.stages.map fun stage => sign "94" "INFO" ++ " " ++ stage.text
  "\n".intercalate (("Diagnostics " ++ s.id) :: head ++ counters ++ stages)

end Sink

namespace Recorded

open Diagnostics

/-- Adds a record. -/
def emit {ε : Type} (e : Event) : Recorded ε Unit := modify (·.emit e)

/-- Adds to a counter. -/
def increment {ε : Type} (counter : String) (amount : Int) : Recorded ε Unit := modify (·.increment counter amount)

end Recorded

end Treebank

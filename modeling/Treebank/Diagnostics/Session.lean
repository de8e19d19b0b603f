import Treebank.Diagnostics

/-!
# Timed stages

A session is a sink with a clock. A stage reads the clock when it begins and when it ends; if what is done in it fails, the failure is
noted and passed on.
-/

namespace Treebank.Diagnostics

/-- A level that there is not. -/
structure LevelUnknown where
  name : String
  deriving DecidableEq, Repr

/-- The message of an error. -/
def LevelUnknown.message (e : LevelUnknown) : String := Text.quoted e.name ++ " is not a valid DiagnosticLevel"

/-- The level of a name that has to be one. -/
def Level.ofName (name : String) : Except LevelUnknown Level :=
  match Level.ofName? name with
  | some level => .ok level
  | none => .error ⟨name⟩

/-- A sink with the times that a clock is going to show; when they are used up, it shows zero. -/
structure Session where
  sink : Sink
  clock : List Binary64 := []
  deriving Inhabited

/-- A computation in a session; what it has done stays done when it fails. -/
abbrev Timed (ε α : Type) := ExceptT ε (StateM Session) α

namespace Session

/-- Changes the sink. -/
def modifySink (s : Session) (f : Sink → Sink) : Session := { s with sink := f s.sink }

/-- The present time. -/
def now (s : Session) : Binary64 := s.clock.head?.getD (.zero false)

/-- Passes to the next time of the clock. -/
def advance (s : Session) : Session := { s with clock := s.clock.tail }

/-- Begins a stage. -/
def openStage (s : Session) (name : String) : Session := (s.modifySink (·.openStage name s.now)).advance

/-- Ends the stage of the given number. -/
def closeStage (s : Session) (number : Nat) (failure : Option String) : Session :=
  (s.modifySink (·.closeStage number s.now failure)).advance

/-- The duration of the stage of the given number, in writing. -/
def durationText (s : Session) (number : Nat) : String := ((s.sink.stages[number]?).map Stage.durationText).getD "0"

end Session

/-- Does something in a stage; gives the duration of the stage just before its end, and after it. -/
def Timed.stage {ε : Type} (name : String) (message : ε → String) (body : Timed ε Unit) : Timed ε (String × String) := do
  let number := (← get).sink.stages.length
  modify (·.openStage name)
  try body
  catch e =>
    modify (·.closeStage number (some (message e)))
    throw e
  let before := (← get).durationText number
  modify (·.closeStage number none)
  return (before, (← get).durationText number)

end Treebank.Diagnostics

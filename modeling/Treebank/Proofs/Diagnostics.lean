import Treebank.Diagnostics
import Treebank.Proofs.Pairs

/-!
# Laws of sinks

What a counter is after one is added to, and what a recording computation comes to after another one.
-/

namespace Treebank

/-- The value of a counter. -/
def Sink.count (s : Sink) (counter : String) : Int := (s.counters.lookup counter).getD 0

/-- Adding to a counter leaves the others. -/
theorem Sink.count_increment (s : Sink) (counter name : String) (amount : Int) :
    (s.increment counter amount).count name = s.count name + if name = counter then amount else 0 := by
  unfold count increment
  simp only [Pairs.lookup_put]
  by_cases h : name = counter <;> simp [h]

/-- After a computation that succeeds, the next one goes on from its result and its sink. -/
theorem Recorded.run_bind_ok {ε α β : Type} {x : Recorded ε α} {f : α → Recorded ε β} {a : α} {sink sink' : Sink}
    (h : x.run.run sink = (.ok a, sink')) : (x >>= f).run.run sink = (f a).run.run sink' := by
  simp only [ExceptT.run_bind, StateT.run_bind]
  rw [h]
  rfl

/-- After a computation that fails, the next one is left out. -/
theorem Recorded.run_bind_error {ε α β : Type} {x : Recorded ε α} {f : α → Recorded ε β} {e : ε} {sink sink' : Sink}
    (h : x.run.run sink = (.error e, sink')) : (x >>= f).run.run sink = (.error e, sink') := by
  simp only [ExceptT.run_bind, StateT.run_bind]
  rw [h]
  rfl

/-- Two computations succeed, one after the other, exactly if the first one does and then the second one, from where it left the sink. -/
theorem Recorded.run_bind_eq_ok_iff {ε α β : Type} {x : Recorded ε α} {f : α → Recorded ε β} {b : β} {sink : Sink} :
    ((x >>= f).run.run sink).1 = .ok b ↔ ∃ a sink', x.run.run sink = (.ok a, sink') ∧ ((f a).run.run sink').1 = .ok b := by
  rcases h : x.run.run sink with ⟨e | a, sink'⟩
  · rw [run_bind_error h]
    constructor
    · rintro ⟨⟩
    · rintro ⟨a, sink'', ha, -⟩
      cases ha
  · rw [run_bind_ok h]
    constructor
    · exact fun hb => ⟨a, sink', rfl, hb⟩
    · rintro ⟨a', sink'', ha, hb⟩
      cases ha
      exact hb

/-- After a computation that records nothing, the next one goes on with the sink as it was. -/
theorem Recorded.run_lift_bind_eq_ok_iff {ε α β : Type} {x : Except ε α} {f : α → Recorded ε β} {b : β} {sink : Sink} :
    (((liftM x : Recorded ε α) >>= f).run.run sink).1 = .ok b ↔ ∃ a, x = .ok a ∧ ((f a).run.run sink).1 = .ok b := by
  cases x with
  | error e =>
    constructor
    · rintro ⟨⟩
    · rintro ⟨a, ⟨⟩, -⟩
  | ok a =>
    constructor
    · exact fun h => ⟨a, rfl, h⟩
    · rintro ⟨a', ha, h⟩
      cases ha
      exact h

end Treebank

/-
  Value engine — outcomes.

  * `Outcome`: a value, a failure, or the end of an iteration.
  * `Outcome.ofValue`: the success that holds a value.
  * `Outcome.value`, `Outcome.cause`: what an outcome holds.
-/
import ValueEngine.Outcome.Failure

namespace ValueEngine

/-- How an operation ends: with a value, with a failure, or, for an iteration, with
    nothing left. -/
inductive Outcome
  | success (value : ObjId)
  | failure (cause : Failure)
  | exhausted
  deriving DecidableEq, Repr

namespace Outcome

/-- The success that holds a value; there is none for the null reference. -/
def ofValue : Ref → Except Abort Outcome
  | some value => .ok (success value)
  | none => .error .nullSuccess

/-- The value of a success. -/
def value : Outcome → Except Abort ObjId
  | success value => .ok value
  | _ => .error .noValue

/-- The cause of a failure. -/
def cause : Outcome → Except Abort Failure
  | failure cause => .ok cause
  | _ => .error .noFailure

theorem value_of_ofValue {r : Ref} {outcome : Outcome} (h : ofValue r = .ok outcome) :
    ∃ i, r = some i ∧ outcome.value = .ok i := by
  cases r with
  | none => cases h
  | some i => cases h; exact ⟨i, rfl, rfl⟩

end Outcome

end ValueEngine

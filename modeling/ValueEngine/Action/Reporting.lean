/-
  Value engine — the trace, the hooks of the host, and failing.

  * `trace`: writes a message if its level is within the verbosity.
  * `Hooks`: the code that a host may plug in, all of it optional.
  * `report`: makes a failure known, to the trace first and then to the host.
  * `fail`: ends an operation with a failure once it is known.
-/
import ValueEngine.Action.Basic

namespace ValueEngine

variable {σ : Type}

/-- The level at which failures are traced. -/
def failureLevel : Int := 1

/-- The level at which operators that are served are traced. -/
def operatorLevel : Int := 2

/-- A message of the trace as it is written out. -/
def TraceLine.text (line : TraceLine) : Bytes :=
  Bytes.ofString "pyCore: " ++ line.message ++ Bytes.ofString "\n"

/-- The world after a message, which is kept only within the verbosity. -/
def World.traced (level : Int) (message : Bytes) (w : World σ) : World σ :=
  if level ≤ w.settings.verbosity then { w with trace := w.trace ++ [⟨level, message⟩] } else w

/-- Writes a message to the trace. -/
def trace (level : Int) (message : Bytes) : Action σ Unit := modify (World.traced level message)

/-- What a host may plug into an engine. -/
structure Hooks (σ : Type) where
  /-- Sees each failure as it is built, while operands may still be lent. -/
  onFailure : Option (Failure → Action σ Unit) := none
  /-- Serves an operator on operands that the engine does not support. It is handed an
      outcome, gives one back and says whether that one counts. -/
  onUnsupported : Option (Operator → Ref → Ref → Outcome → Action σ (Bool × Outcome)) := none

/-- Makes a failure known, to the trace first and then to the host. -/
def report (hooks : Hooks σ) (cause : Failure) : Action σ Unit := do
  trace failureLevel cause.text
  match hooks.onFailure with
  | some hook => hook cause
  | none => return ()

/-- Ends with a failure once it is known. -/
def fail (hooks : Hooks σ) (cause : Failure) : Action σ Outcome := do
  report hooks cause
  return .failure cause

namespace World

theorem traced_of_le {level : Int} {w : World σ} (h : level ≤ w.settings.verbosity)
    (message : Bytes) :
    w.traced level message = { w with trace := w.trace ++ [⟨level, message⟩] } := if_pos h

theorem traced_of_lt {level : Int} {w : World σ} (h : w.settings.verbosity < level)
    (message : Bytes) : w.traced level message = w := if_neg (by omega)

@[simp] theorem heap_traced (level : Int) (message : Bytes) (w : World σ) :
    (w.traced level message).heap = w.heap := by
  unfold traced; split <;> rfl

@[simp] theorem host_traced (level : Int) (message : Bytes) (w : World σ) :
    (w.traced level message).host = w.host := by
  unfold traced; split <;> rfl

end World

end ValueEngine

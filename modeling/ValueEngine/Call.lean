/-
  Value engine — calls.

  A native function is code of the host and is entered at once. A function is a compiled
  program, which is handed to the evaluator.

  * `Evaluator`: the way to call something, handed to native code.
  * `Natives`: the code behind the native functions.
  * `callTarget`: what a call goes to.
  * `Ref.call`: calls an object; nothing is lent while the callee runs.
-/
import ValueEngine.Action.Lending
import ValueEngine.Action.Reporting

namespace ValueEngine

variable {σ : Type}

/-- The way native code calls back: `run` calls any object that can be called. -/
structure Evaluator (σ : Type) where
  run : Ref → List Ref → Action σ Outcome

/-- The code behind the native functions of a host. -/
abbrev Natives (σ : Type) := NativeId → Evaluator σ → List Ref → Action σ Outcome

/-- What a call goes to. -/
inductive CallTarget
  | native (code : NativeId)
  | evaluator
  | nowhere (outcome : Outcome)
  deriving DecidableEq, Repr

/-- What a call of an object goes to; an object that cannot be called is a failure. -/
def callTarget (hooks : Hooks σ) (f : Ref) : Action σ CallTarget :=
  withRead f fun _ o =>
    match o.payload with
    | .nativeFunction (some code) => return .native code
    | .nativeFunction none | .function _ => return .evaluator
    | payload => return .nowhere (← fail hooks (.notCallable payload.kind))

/-- Calls an object with arguments. -/
def Ref.call (hooks : Hooks σ) (natives : Natives σ) (evaluator : Option (Evaluator σ)) (f : Ref)
    (args : List Ref) : Action σ Outcome :=
  match evaluator with
  | none => Action.abort .noEvaluator
  | some evaluator => do
    match ← callTarget hooks f with
    | .native code => natives code evaluator args
    | .evaluator => evaluator.run f args
    | .nowhere outcome => return outcome

end ValueEngine

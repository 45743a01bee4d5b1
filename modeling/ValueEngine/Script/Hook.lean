/-
  Value engine — scripts: the hooks of the host.

  * `FailureMode`: what the host does when it sees a failure.
  * `OfferMode`: what the host does when it is offered an operator.
  * `hooks`: the hooks for a choice of modes.
-/
import ValueEngine.Operator.Apply
import ValueEngine.Script.Scope

namespace ValueEngine.Script

/-! ## Failures -/

/-- What the host does when it sees a failure. -/
inductive FailureMode
  | none
  | record
  /-- Records it and tries which registers hold an object that can be written. -/
  | probe
  /-- Records it and gives up. -/
  | throw
  deriving DecidableEq

/-- Why the object of a reference cannot be lent for writing now, if it is lent. -/
def conflict? (r : Ref) : Act (Option Abort) := do
  match ← Action.attempt (withWrite r fun _ _ => return ()) with
  | .error cause => return if cause.isLoanConflict then some cause else none
  | .ok _ => return none

/-- The registers whose object cannot be lent for writing now, in order. -/
def lockedRegisters (registers : Table Ref) : Act (List (Bytes × Abort)) :=
  registers.filterMapM fun e => return (← conflict? e.2).map (e.1, ·)

/-- Records a failure. -/
def recordFailure (s : Scope) (probe : Bool) (failure : Failure) : Act Unit := do
  let report ← describeFailure s failure
  let locked ← if probe then some <$> lockedRegisters s.registers else pure none
  emit (.failure report locked)

/-- The hook for failures. -/
def FailureMode.hook (s : Scope) : FailureMode → Option (Failure → Act Unit)
  | none => .none
  | record => some (recordFailure s false)
  | probe => some (recordFailure s true)
  | throw => some fun failure => do
    recordFailure s false failure
    Action.abort (.host (.ofString "thrown by failureCallback"))

/-! ## Operators -/

/-- What the host does when it is offered an operator. -/
inductive OfferMode
  | none
  | decline
  /-- Declines, but leaves a value behind. -/
  | declineDirty
  /-- Adds booleans as integers. -/
  | boolAdd
  /-- Repeats a string that stands on the right. -/
  | swapMultiply
  /-- Serves any operator while both operands are lent for writing. -/
  | lock
  | fail
  | throw
  /-- Gives the left operand. -/
  | left
  /-- Gives back the outcome it was handed. -/
  | exhaust
  deriving DecidableEq

/-- What the host makes of an operator that it is offered. -/
def OfferMode.serve (hooks : Hooks Memory) (mode : OfferMode) (op : Operator) (a b : Ref)
    (outcome : Outcome) : Act (Bool × Outcome) := do
  match mode with
  | none | decline => return (false, outcome)
  | declineDirty => return (false, ← freshValue (.integer 99))
  | boolAdd =>
    withRead a fun _ x => withRead b fun _ y =>
      match op, x.payload, y.payload with
      | .add, .boolean p, .boolean q => do
        return (true, ← freshValue (.integer (p.toInt32 + q.toInt32)))
      | _, _, _ => return (false, outcome)
  | swapMultiply =>
    let swaps ← withRead a fun _ x => withRead b fun _ y =>
      return op == .multiply && x.kind == .integer && y.kind == .string
    if swaps then return (true, ← Ref.multiply hooks b a) else return (false, outcome)
  | lock =>
    withWrite a fun _ _ => withWrite b fun _ _ => do
      return (true, ← freshValue (.string (.ofString "locked both")))
  | fail =>
    let refusal := Failure.raised FailureKind.badValue.code (.ofString "refused by fallback") a
    return (true, ← ValueEngine.fail hooks refusal)
  | throw => Action.abort (.host (.ofString "thrown by fallback"))
  | left => return (true, ← Action.succeed a)
  | exhaust => return (true, outcome)

/-- The hook for operators. What it does in turn never needs the hook again. -/
def OfferMode.hook (s : Scope) (hooks : Hooks Memory) (mode : OfferMode) :
    Option (Operator → Ref → Ref → Outcome → Act (Bool × Outcome)) :=
  if mode = none then .none
  else some fun op a b outcome => do
    let left ← describe s a
    let right ← describe s b
    emit (.unsupported op left right)
    mode.serve hooks op a b outcome

/-- The hooks for a choice of modes. -/
def hooks (s : Scope) (onFailure : FailureMode) (onUnsupported : OfferMode) : Hooks Memory :=
  let base : Hooks Memory := { onFailure := onFailure.hook s }
  { base with onUnsupported := onUnsupported.hook s base }

end ValueEngine.Script

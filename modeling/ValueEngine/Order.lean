/-
  Value engine — order.

  Integers are ordered; any other pair of objects is a failure.

  * `orderOf`: how two objects that are lent are ordered.
  * `Ref.below`, `Ref.atMost`, `Ref.above`, `Ref.atLeast`: the questions about it.
  * `Ref.rank`: the order as a number.
-/
import ValueEngine.Action.Creation
import ValueEngine.Action.Lending
import ValueEngine.Action.Reporting
import ValueEngine.Checked

namespace ValueEngine

variable {σ : Type}

/-- How two objects that are lent already are ordered, or why they are not. -/
def orderOf (hooks : Hooks σ) (a b : Object) : Action σ (Except Failure Ordering) := do
  match a.payload, b.payload with
  | .integer x, .integer y => return .ok (Checked.order x y)
  | _, _ =>
    let cause := Failure.unordered a.kind b.kind
    report hooks cause
    return .error cause

/-- The outcome of the order of two references, of which `answer` makes a payload. -/
def orderOutcome (hooks : Hooks σ) (answer : Ordering → Payload) (a b : Ref) :
    Action σ Outcome := do
  match ← withRead a fun _ x => withRead b fun _ y => orderOf hooks x y with
  | .ok order => freshValue (answer order)
  | .error cause => return .failure cause

namespace Ref

/-- Whether `a` is below `b`. -/
def below (hooks : Hooks σ) (a b : Ref) : Action σ Outcome :=
  orderOutcome hooks (fun order => .boolean order.isLT) a b

/-- Whether `a` is at most `b`. -/
def atMost (hooks : Hooks σ) (a b : Ref) : Action σ Outcome :=
  orderOutcome hooks (fun order => .boolean order.isLE) a b

/-- Whether `a` is above `b`. -/
def above (hooks : Hooks σ) (a b : Ref) : Action σ Outcome :=
  orderOutcome hooks (fun order => .boolean order.isGT) a b

/-- Whether `a` is at least `b`. -/
def atLeast (hooks : Hooks σ) (a b : Ref) : Action σ Outcome :=
  orderOutcome hooks (fun order => .boolean order.isGE) a b

/-- The order of `a` and `b` as a number: `-1`, `0` or `1`. -/
def rank (hooks : Hooks σ) (a b : Ref) : Action σ Outcome :=
  orderOutcome hooks (fun order => .integer (Checked.sign order)) a b

end Ref

end ValueEngine

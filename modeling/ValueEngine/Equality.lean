/-
  Value engine — equality.

  Only some kinds offer equality, and only between objects of one kind; any other pair
  is a failure, never a guess.

  * `Verdict`: the three answers.
  * `equality`: the test of two objects, given the pairs of lists whose comparison is
    under way. Such a pair counts as equal, so lists that hold themselves come to an
    end.
  * `judge`: the test of two objects that are lent.
  * `Ref.equal`, `Ref.different`: the comparisons of references.
-/
import ValueEngine.Action.Creation
import ValueEngine.Action.Lending
import ValueEngine.Action.Reporting

namespace ValueEngine

variable {σ : Type}

/-- The answer of an equality test. -/
inductive Verdict
  | equal
  | unequal
  | failed (cause : Failure)
  deriving DecidableEq, Repr

/-- The answer to whether two contents are equal. -/
def Verdict.ofBool (b : Bool) : Verdict := if b then equal else unequal

/-- Comparing objects. The state is the list of pairs under way, innermost first. -/
abbrev Comparing (σ : Type) := StateT (List (ObjId × ObjId)) (Action σ)

/-- Tests the elements of two sequences in step, up to the first pair that is not
    equal. -/
def allEqual (test : Ref → Ref → Comparing σ Verdict) : List Ref → List Ref → Comparing σ Verdict
  | l :: ls, r :: rs => do
    match ← test l r with
    | .equal => allEqual test ls rs
    | verdict => return verdict
  | _, _ => return .equal

/-- Refuses to compare two objects. -/
def refuse (hooks : Hooks σ) (a b : Object) : Action σ Verdict := do
  let cause := Failure.incomparable a.kind b.kind
  report hooks cause
  return .failed cause

/-- Whether two objects are equal. The number bounds the depth; no pair of lists is
    under way twice, so the number of pairs of objects and one more is always enough. -/
def equality (hooks : Hooks σ) : Nat → ObjId → Object → ObjId → Object → Comparing σ Verdict
  | 0, _, _, _, _ => fun _ => Action.abort .unfinished
  | depth + 1, i, a, j, b => fun pairs =>
    if a.kind ≠ b.kind ∨ a.kind.hasEquality = false then return (← refuse hooks a b, pairs)
    else if i = j then return (.equal, pairs)
    else
      match a.payload, b.payload with
      | .integer x, .integer y => return (.ofBool (x == y), pairs)
      | .string s, .string t => return (.ofBool (s == t), pairs)
      | .list ls, .list rs =>
        if (i, j) ∈ pairs then return (.equal, pairs)
        else if ls.length ≠ rs.length then return (.unequal, pairs)
        else do
          let test := fun l r pairs =>
            withRead l fun i a => withRead r fun j b => equality hooks depth i a j b pairs
          let (verdict, pairs) ← allEqual test ls rs ((i, j) :: pairs)
          return (verdict, pairs.tail)
      | _, _ => return (← refuse hooks a b, pairs)

/-- Whether two objects that are lent already are equal. -/
def judge (hooks : Hooks σ) (i : ObjId) (a : Object) (j : ObjId) (b : Object) :
    Action σ Verdict := do
  let heap ← Action.heap
  let (verdict, _) ← equality hooks (heap.size * heap.size + 1) i a j b []
  return verdict

/-- The outcome of a verdict, of which `answer` makes a truth value. -/
def Verdict.outcome (answer : Bool → Bool) : Verdict → Action σ Outcome
  | equal => freshValue (.boolean (answer true))
  | unequal => freshValue (.boolean (answer false))
  | failed cause => return .failure cause

namespace Ref

/-- Whether two values are equal. -/
def equal (hooks : Hooks σ) (a b : Ref) : Action σ Outcome :=
  withRead a fun i x => withRead b fun j y => do (← judge hooks i x j y).outcome id

/-- Whether two values differ. -/
def different (hooks : Hooks σ) (a b : Ref) : Action σ Outcome :=
  withRead a fun i x => withRead b fun j y => do (← judge hooks i x j y).outcome not

end Ref

end ValueEngine

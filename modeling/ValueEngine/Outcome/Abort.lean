/-
  Value engine — aborts.

  An abort is a misuse of the engine by its host: it leaves every operation that is
  under way and is never a result. Failures of the programs that run on the engine
  are in `ValueEngine.Outcome.Failure`.

  * `Abort`: the causes.
  * `Abort.message`: the wording.
  * `Abort.category`: what sort of misuse it is.
-/
import ValueEngine.Bytes

namespace ValueEngine

/-- Why an operation was left without an outcome. -/
inductive Abort
  /-- A loan was asked for while the exclusive one is out. -/
  | exclusivelyLent
  /-- The exclusive loan was asked for while readers are out. -/
  | lentToReaders
  | nullReference
  | nullSuccess
  | nullListElement
  | nullTupleElement
  | nullDictValue
  | iteratorWithoutTarget
  | codeWithoutProgram
  | functionWithoutProgram
  | nativeWithoutTarget
  | objectWithoutPayload
  | nullStored
  | nullAppended
  | nullAttribute
  | noEvaluator
  | zeroDivisor
  | unknownOperator
  | noValue
  | noFailure
  | notString
  | notInteger
  | notBoolean
  | notList
  | notTuple
  | notDict
  | notNamed
  | notNative
  | notCode
  | notIterator
  /-- The host's own code gave up. -/
  | host (message : Bytes)
  /-- A recursion went deeper than its budget. -/
  | unfinished
  deriving DecidableEq, Repr

namespace Abort

/-- The sorts of misuse. -/
inductive Category
  | loanConflict
  | invalidArgument
  | wrongState
  | wrongKind
  | hostFault
  | unfinished
  deriving DecidableEq, Repr

/-- The sort of misuse behind an abort. -/
def category : Abort → Category
  | exclusivelyLent | lentToReaders => .loanConflict
  | nullReference | nullSuccess | nullListElement | nullTupleElement | nullDictValue
  | iteratorWithoutTarget | codeWithoutProgram | functionWithoutProgram | nativeWithoutTarget
  | objectWithoutPayload | nullStored | nullAppended | nullAttribute | noEvaluator | zeroDivisor
  | unknownOperator => .invalidArgument
  | noValue | noFailure => .wrongState
  | notString | notInteger | notBoolean | notList | notTuple | notDict | notNamed | notNative
  | notCode | notIterator => .wrongKind
  | host _ => .hostFault
  | unfinished => .unfinished

/-- What the host is told. -/
def message : Abort → Bytes
  | exclusivelyLent => .ofString "Object is already mutably borrowed."
  | lentToReaders => .ofString "Object is already borrowed."
  | nullReference => .ofString "Cannot borrow a null reference."
  | nullSuccess => .ofString "A successful result needs a value."
  | nullListElement => .ofString "List elements cannot be null references."
  | nullTupleElement => .ofString "Tuple elements cannot be null references."
  | nullDictValue => .ofString "Dict values cannot be null references."
  | iteratorWithoutTarget => .ofString "An iterator needs a target."
  | codeWithoutProgram => .ofString "A code object needs a compiled blob."
  | functionWithoutProgram => .ofString "A function needs a compiled blob."
  | nativeWithoutTarget => .ofString "A native function needs a target."
  | objectWithoutPayload => .ofString "PyObject::create requires a kind."
  | nullStored => .ofString "setItem requires a value."
  | nullAppended => .ofString "append requires a value."
  | nullAttribute => .ofString "Attribute value cannot be a null reference."
  | noEvaluator => .ofString "invoke requires an executor."
  | zeroDivisor => .ofString "Integer::divide called with a zero divisor."
  | unknownOperator => .ofString "Unknown binary operator."
  | noValue => .ofString "Result holds no value."
  | noFailure => .ofString "Result holds no error."
  | notString => .ofString "Object is not a string type."
  | notInteger => .ofString "Object is not an integer type."
  | notBoolean => .ofString "Object is not a boolean type."
  | notList => .ofString "Object is not a list type."
  | notTuple => .ofString "Object is not a tuple type."
  | notDict => .ofString "Object is not a dict type."
  | notNamed => .ofString "Object has no name."
  | notNative => .ofString "Object is not a native function."
  | notCode => .ofString "Object carries no compiled code."
  | notIterator => .ofString "Object is not an iterator."
  | host text => text
  | unfinished => .ofString "Recursion budget exhausted."

/-- Whether an abort is a conflict between loans. -/
def isLoanConflict (e : Abort) : Bool := e.category == .loanConflict

theorem isLoanConflict_iff {e : Abort} :
    e.isLoanConflict = true ↔ e = exclusivelyLent ∨ e = lentToReaders := by
  cases e <;> simp [isLoanConflict, category]

end Abort

end ValueEngine

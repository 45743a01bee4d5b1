/-
  Value engine — failures.

  A failure is a recoverable error of the program that runs on the engine.

  * `FailureKind`: the kinds of failure, each with a code and a name.
  * `Failure`: the causes.
  * `Failure.code`, `Failure.name`: the kind of a failure.
  * `Failure.message`, `Failure.text`: the wording, without and with the kind.
-/
import ValueEngine.Object.Basic
import ValueEngine.Operator.Basic

namespace ValueEngine

/-- The kinds of failure. -/
inductive FailureKind
  | wrongType
  | badValue
  | overflow
  | divisionByZero
  | notCallable
  | unsupportedIteration
  | missingAttribute
  | badIndex
  | missingKey
  | exception
  deriving DecidableEq, Repr

namespace FailureKind

/-- The number that stands for a kind of failure. -/
def code : FailureKind → Int
  | wrongType => 1
  | badValue => 2
  | overflow => 3
  | divisionByZero => 4
  | notCallable => 5
  | unsupportedIteration => 6
  | missingAttribute => 7
  | badIndex => 8
  | missingKey => 9
  | exception => 10

/-- The kind of failure with a given code. -/
def ofCode? : Int → Option FailureKind
  | 1 => some wrongType
  | 2 => some badValue
  | 3 => some overflow
  | 4 => some divisionByZero
  | 5 => some notCallable
  | 6 => some unsupportedIteration
  | 7 => some missingAttribute
  | 8 => some badIndex
  | 9 => some missingKey
  | 10 => some exception
  | _ => none

/-- The name of a kind of failure. -/
def name : FailureKind → Bytes
  | wrongType => .ofString "TypeError"
  | badValue => .ofString "ValueError"
  | overflow => .ofString "OverflowError"
  | divisionByZero => .ofString "DivisionByZeroError"
  | notCallable => .ofString "NotCallableError"
  | unsupportedIteration => .ofString "UnsupportedIterationError"
  | missingAttribute => .ofString "AttributeError"
  | badIndex => .ofString "IndexError"
  | missingKey => .ofString "KeyError"
  | exception => .ofString "Exception"

theorem ofCode?_code (k : FailureKind) : ofCode? k.code = some k := by cases k <;> rfl

end FailureKind

/-- Why an operation failed. -/
inductive Failure
  | unsupportedOperands (op : Operator) (left right : Kind)
  | incomparable (left right : Kind)
  | unordered (left right : Kind)
  | arithmeticOverflow (op : Operator)
  | divisionByZero
  | textTooLong
  | repeatedTextTooLong
  | stepIsZero
  | keyNotText (key : Kind)
  | badIndex (container key : Kind)
  | noItems (container : Kind)
  | indexOutOfRange (container : Kind)
  | missingKey (key : Bytes)
  | badListIndex (key : Kind)
  | assignmentOutOfRange
  | noItemAssignment (container : Kind)
  | noLength (container : Kind)
  | lengthOverflow
  | noAppend (container : Kind)
  | needleNotText (needle : Kind)
  | notSearchable (container : Kind)
  | notIterable (target : Kind)
  | notIterator (object : Kind)
  | missingAttribute (object : Kind) (name : Bytes)
  | notCallable (object : Kind)
  /-- A failure of the host's own making: its code, its message and a value. -/
  | raised (code : Int) (message : Bytes) (payload : Ref)
  deriving DecidableEq, Repr

namespace Failure

/-- The failure that says nothing. -/
def blank : Failure := raised 0 [] none

/-- The code of a failure; a raised one may have a code of no kind. -/
def code : Failure → Int
  | unsupportedOperands .. | incomparable .. | unordered .. | keyNotText _ | badIndex ..
  | noItems _ | badListIndex _ | noItemAssignment _ | noLength _ | noAppend _
  | needleNotText _ | notSearchable _ => FailureKind.wrongType.code
  | stepIsZero => FailureKind.badValue.code
  | arithmeticOverflow _ | textTooLong | repeatedTextTooLong | lengthOverflow =>
    FailureKind.overflow.code
  | divisionByZero => FailureKind.divisionByZero.code
  | notCallable _ => FailureKind.notCallable.code
  | notIterable _ | notIterator _ => FailureKind.unsupportedIteration.code
  | missingAttribute .. => FailureKind.missingAttribute.code
  | indexOutOfRange _ | assignmentOutOfRange => FailureKind.badIndex.code
  | missingKey _ => FailureKind.missingKey.code
  | raised code _ _ => code

/-- The kind of a failure, if its code stands for one. -/
def kind? (f : Failure) : Option FailureKind := FailureKind.ofCode? f.code

/-- The name of a failure's kind. -/
def name (f : Failure) : Bytes :=
  match f.kind? with
  | some k => k.name
  | none => .ofString "Error"

/-- The value that a failure carries. -/
def payload : Failure → Ref
  | raised _ _ payload => payload
  | _ => none

open Bytes in
/-- What a failure says. -/
def message : Failure → Bytes
  | unsupportedOperands op left right =>
    ofString "unsupported operand type(s) for " ++ op.symbol ++ ofString ": " ++
      quoted left.name ++ ofString " and " ++ quoted right.name
  | incomparable left right =>
    ofString "'==' not supported between instances of " ++
      quoted left.name ++ ofString " and " ++ quoted right.name
  | unordered left right =>
    ofString "ordering not supported between instances of " ++
      quoted left.name ++ ofString " and " ++ quoted right.name
  | arithmeticOverflow op => ofString "integer " ++ op.noun ++ ofString " overflow"
  | divisionByZero => ofString "integer division by zero"
  | textTooLong => ofString "string is too long"
  | repeatedTextTooLong => ofString "repeated string is too long"
  | stepIsZero => ofString "slice step cannot be zero"
  | keyNotText key => ofString "dict keys must be str, not " ++ quoted key.name
  | badIndex container key =>
    quoted container.name ++ ofString " indices must be integers or slices, not " ++
      quoted key.name
  | noItems container => quoted container.name ++ ofString " object is not subscriptable"
  | indexOutOfRange .string => ofString "string index out of range"
  | indexOutOfRange container => container.name ++ ofString " index out of range"
  | missingKey key => quoted key
  | badListIndex key => ofString "list indices must be integers, not " ++ quoted key.name
  | assignmentOutOfRange => ofString "list assignment index out of range"
  | noItemAssignment container =>
    quoted container.name ++ ofString " object does not support item assignment"
  | noLength container => ofString "object of type " ++ quoted container.name ++
      ofString " has no len()"
  | lengthOverflow => ofString "length does not fit in an integer"
  | noAppend container => quoted container.name ++ ofString " object has no attribute 'append'"
  | needleNotText needle =>
    ofString "'in <string>' requires string as left operand, not " ++ quoted needle.name
  | notSearchable container =>
    ofString "argument of type " ++ quoted container.name ++ ofString " is not iterable"
  | notIterable target => quoted target.name ++ ofString " object is not iterable"
  | notIterator object => quoted object.name ++ ofString " object is not an iterator"
  | missingAttribute object name =>
    quoted object.name ++ ofString " object has no attribute " ++ quoted name
  | notCallable object => quoted object.name ++ ofString " object is not callable"
  | raised _ message _ => message

/-- The whole text of a failure: its kind and what it says. -/
def text (f : Failure) : Bytes := f.name ++ Bytes.ofString ": " ++ f.message

end Failure

end ValueEngine

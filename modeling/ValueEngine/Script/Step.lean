/-
  Value engine — scripts: what a script can ask for.

  * `Operation`: what ends in an outcome, whose value a register may keep.
  * `Question`: what can be asked of an object that is lent.
  * `GuardAction`: what can be done through a guard.
  * `Step`: everything a script can ask for.
-/
import ValueEngine.Request
import ValueEngine.Script.Hook
import ValueEngine.Script.Operand

namespace ValueEngine.Script

/-- What ends in an outcome. -/
inductive Operation
  | binary (verb : Binary) (a b : Operand)
  | unary (verb : Unary) (a : Operand)
  | store (a key value : Operand)
  | readAttribute (a : Operand) (name : Bytes)
  | unbindAttribute (a : Operand) (name : Bytes)
  | operator (a b : Operand) (code : Int)
  | evaluate (f : Operand) (args : List Operand)
  | fail (payload : Operand) (code : Int) (message : Bytes)

/-- The contents that can be asked of an object. -/
inductive Question
  | text
  | integer
  | boolean
  | list
  | tuple
  | dict
  | name
  | native
  | program
  | position
  | target
  deriving DecidableEq

/-- What can be done through a guard. -/
inductive GuardAction
  | text
  | inspect
  | ask (question : Question)
  | ownAttribute (name : Bytes)
  | push (value : Operand)
  | truncate (length : Nat)
  | insertEntry (value : Operand) (key : Bytes)
  | eraseEntry (key : Bytes)
  | bindAttribute (value : Operand) (name : Bytes)
  | unbindAttribute (name : Bytes)

/-- The changes of a configuration; what is absent stays. -/
structure Changes where
  textLimit : Option Nat
  verbosity : Option Int
  onFailure : Option FailureMode
  onUnsupported : Option OfferMode

/-- The outcomes that a script can put together. -/
inductive OutcomeForm
  | success (value : Operand)
  | failure (code : Int) (message : Bytes)
  | blankFailure
  | exhausted

/-- The functions on integers. -/
inductive IntegerFunction
  | add
  | subtract
  | multiply
  | divide
  | order
  | numeral
  deriving DecidableEq

/-- What a script can ask for. -/
inductive Step
  | operate (operation : Operation) (register : Option Bytes)
  | call (f : Operand) (args : List Operand) (withEvaluator : Bool) (register : Option Bytes)
  | bind (value : Operand) (register : Bytes)
  | unbind (registers : List Bytes)
  | program (name : Bytes) (bytes : Bytes)
  | text (a : Operand)
  | describe (a : Operand)
  | truth (a : Operand)
  | nullness (a : Operand)
  | same (a b : Operand)
  | referenceCount (name : Bytes)
  | inspect (a : Operand)
  | ask (a : Operand) (question : Question)
  | sameProgram (a b : Operand)
  | knows (a : Operand) (name : Bytes)
  | bindAttribute (a value : Operand) (name : Bytes)
  | configure (changes : Changes)
  | trace (level : Int) (message : Bytes)
  | failure (payload : Operand) (code : Int) (message : Bytes)
  | outcome (form : OutcomeForm)
  | symbol (code : Int)
  | kind (tag : Int)
  | judge (a b : Operand)
  | order (a b : Operand)
  | integer (function : IntegerFunction) (x y : Int32)
  | guard (access : Access) (a : Operand) (name : Bytes)
  | release (guard : Bytes)
  | moveGuard (guard target : Bytes)
  | through (guard : Bytes) (action : GuardAction)
  | repeated (times : Int) (body : List Step)

end ValueEngine.Script

/-
  Value engine — requests.

  Everything that can be asked of references, as data.

  * `Binary`, `Unary`: what is asked of two references and of one.
  * `Request`: an operation with its operands; `Request.run` carries it out.
  * `Environment`: the code of a host that an operation may enter.
  * `Response`: what an operation gives.
-/
import ValueEngine.Call
import ValueEngine.Collection.Iteration
import ValueEngine.Collection.Membership
import ValueEngine.Collection.Size
import ValueEngine.Lookup
import ValueEngine.Operator.Apply
import ValueEngine.Order
import ValueEngine.Rendering

namespace ValueEngine

variable {σ : Type}

/-- The operations on two references that end in an outcome. -/
inductive Binary
  | add
  | subtract
  | multiply
  | divide
  | equal
  | different
  | below
  | atMost
  | above
  | atLeast
  | rank
  | item
  | append
  | contains
  deriving DecidableEq

/-- The operations on one reference that end in an outcome. -/
inductive Unary
  | length
  | iterate
  | next
  deriving DecidableEq

/-- An operation on two references. -/
def Binary.run (hooks : Hooks σ) : Binary → Ref → Ref → Action σ Outcome
  | add => Ref.add hooks
  | subtract => Ref.subtract hooks
  | multiply => Ref.multiply hooks
  | divide => Ref.divide hooks
  | equal => Ref.equal hooks
  | different => Ref.different hooks
  | below => Ref.below hooks
  | atMost => Ref.atMost hooks
  | above => Ref.above hooks
  | atLeast => Ref.atLeast hooks
  | rank => Ref.rank hooks
  | item => Ref.item hooks
  | append => Ref.append hooks
  | contains => Ref.contains hooks

/-- An operation on one reference. -/
def Unary.run (hooks : Hooks σ) : Unary → Ref → Action σ Outcome
  | length => Ref.length hooks
  | iterate => Ref.iterate hooks
  | next => Ref.next hooks

/-- An operation on references with its operands. -/
inductive Request
  | binary (verb : Binary) (a b : Ref)
  | unary (verb : Unary) (a : Ref)
  | store (a key value : Ref)
  | readAttribute (a : Ref) (name : Bytes)
  | knows (a : Ref) (name : Bytes)
  | bindAttribute (a : Ref) (name : Bytes) (value : Ref)
  | unbindAttribute (a : Ref) (name : Bytes)
  | text (a : Ref)
  | truth (a : Ref)
  | call (f : Ref) (args : List Ref)
  deriving DecidableEq

/-- What an operation gives. -/
inductive Response
  | outcome (outcome : Outcome)
  | truth (value : Bool)
  | text (text : Bytes)
  | done
  deriving DecidableEq

/-- The code of a host that an operation may enter. -/
structure Environment (σ : Type) where
  hooks : Hooks σ := {}
  natives : Natives σ := fun _ _ _ => Action.abort .nativeWithoutTarget
  evaluator : Option (Evaluator σ) := none

/-- Carries an operation out. -/
def Request.run (env : Environment σ) : Request → Action σ Response
  | binary verb a b => return .outcome (← verb.run env.hooks a b)
  | unary verb a => return .outcome (← verb.run env.hooks a)
  | store a key value => return .outcome (← Ref.store env.hooks a key value)
  | readAttribute a name => return .outcome (← Ref.readAttribute env.hooks a name)
  | knows a name => return .truth (← Ref.knows a name)
  | bindAttribute a name value => do
    Ref.bindAttribute a name value
    return .done
  | unbindAttribute a name => return .outcome (← Ref.unbindAttribute env.hooks a name)
  | text a => return .text (← Ref.text a)
  | truth a => return .truth (← Ref.truth a)
  | call f args => return .outcome (← Ref.call env.hooks env.natives env.evaluator f args)

end ValueEngine

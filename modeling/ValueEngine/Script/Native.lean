/-
  Value engine — scripts: the native functions and the evaluator of the host.

  * `HostFunction`: the native functions, each with a name.
  * `HostFunction.run`: their code; `natives` finds it by name.
  * `interpret`: what a compiled program gives: its bytes, then its arguments.
  * `evaluator`: calls anything.
-/
import ValueEngine.Call
import ValueEngine.Collection.Iteration
import ValueEngine.Collection.Size
import ValueEngine.Lookup
import ValueEngine.Operator.Apply
import ValueEngine.Script.Scope

namespace ValueEngine.Script

/-- The native functions of the host. -/
inductive HostFunction
  | noop
  | join
  | count
  | first
  | raise
  | callFirst
  | getType
  | truth
  | exhaust
  | throw
  | add
  | append
  | touch
  | map
  deriving DecidableEq

namespace HostFunction

/-- Every native function. -/
def all : List HostFunction :=
  [noop, join, count, first, raise, callFirst, getType, truth, exhaust, throw, add, append, touch,
    map]

/-- The name of a native function. -/
def name : HostFunction → Bytes
  | noop => .ofString "noop"
  | join => .ofString "join"
  | count => .ofString "count"
  | first => .ofString "first"
  | raise => .ofString "raise"
  | callFirst => .ofString "call_first"
  | getType => .ofString "get_type"
  | truth => .ofString "truth"
  | exhaust => .ofString "exhaust"
  | throw => .ofString "throw"
  | add => .ofString "add"
  | append => .ofString "append"
  | touch => .ofString "touch"
  | map => .ofString "map"

/-- The native function of a name. -/
def ofName? (name : Bytes) : Option HostFunction := all.find? fun f => f.name == name

theorem ofName?_name (f : HostFunction) : ofName? f.name = some f := by
  cases f <;> decide

end HostFunction

/-- Calls `f` on each element that an iterator still gives, at most so many, and appends
    the values to a list. -/
def mapElements (hooks : Hooks Memory) (evaluator : Evaluator Memory) (f it out : Ref) :
    Nat → Act Outcome
  | 0 => Action.succeed out
  | count + 1 => do
    match ← Ref.next hooks it with
    | .exhausted => Action.succeed out
    | .failure cause => return .failure cause
    | .success element =>
      match ← evaluator.run f [some element] with
      | .success value =>
        discard (Ref.append hooks out (some value))
        mapElements hooks evaluator f it out count
      | other => return other

/-- The code of a native function. An argument that is missing is the null reference. -/
def HostFunction.run (hooks : Hooks Memory) (f : HostFunction) (evaluator : Evaluator Memory)
    (args : List Ref) : Act Outcome := do
  let arg := fun (n : Nat) => (args[n]?).join
  match f with
  | noop => succeedNone
  | join => freshValue (.string (← args.mapM Ref.text).flatten)
  | count => freshValue (.integer (Int32.ofNat args.length))
  | first => Action.succeed (arg 0)
  | raise =>
    fail hooks (.raised FailureKind.exception.code (.ofString "raised by native code") (arg 0))
  | callFirst => evaluator.run (arg 0) args.tail
  | getType => return .success Kind.classObject.typeId
  | truth => freshValue (.boolean (← Ref.truth (arg 0)))
  | exhaust => return .exhausted
  | throw => Action.abort (.host (.ofString "thrown by native code"))
  | add => Ref.add hooks (arg 0) (arg 1)
  | append => Ref.append hooks (arg 0) (arg 1)
  | touch =>
    Ref.bindAttribute (arg 0) (.ofString "touched") (arg 1)
    succeedNone
  | map =>
    match ← Ref.iterate hooks (arg 1) with
    | .success it =>
      let out ← fresh (.list [])
      mapElements hooks evaluator (arg 0) (some it) (some out) 1000
    | other => return other

/-- The code behind the native functions of the host. -/
def natives (hooks : Hooks Memory) : Natives Memory := fun code evaluator args =>
  match HostFunction.ofName? code.name with
  | some f => f.run hooks evaluator args
  | none => Action.abort .nativeWithoutTarget

/-! ## The evaluator -/

/-- What a compiled program gives: a list of its bytes as integers and of the
    arguments. -/
def interpret (program : Option Program) (args : List Ref) : Act Outcome := do
  remember fun m => { m with interpreted := m.interpreted + 1 }
  let bytes ← ((program.map Program.bytes).getD []).mapM fun b =>
    fresh (.integer (Int32.ofNat b.toNat))
  freshValue (.list (bytes.map some ++ args))

/-- What interpreting an object gives, if it is a function; it is lent for reading
    meanwhile. -/
def interpreted? (f : Ref) (args : List Ref) : Act (Option Outcome) :=
  withRead f fun _ o =>
    match o.payload with
    | .function program => some <$> interpret program args
    | _ => return none

/-- Calls an object. The number bounds how deep native functions may call on. -/
def callWithin (hooks : Hooks Memory) : Nat → Ref → List Ref → Act Outcome
  | 0, f, _ => do
    discard (peek f)
    Action.abort .unfinished
  | depth + 1, f, args => do
    match ← interpreted? f args with
    | some outcome => return outcome
    | none => Ref.call hooks (natives hooks) (some ⟨callWithin hooks depth⟩) f args

/-- The evaluator for a call with some arguments. A native function that calls on hands
    over fewer arguments than it got, so their number bounds the depth. -/
def evaluator (hooks : Hooks Memory) (args : List Ref) : Evaluator Memory :=
  ⟨callWithin hooks (args.length + 1)⟩

end ValueEngine.Script

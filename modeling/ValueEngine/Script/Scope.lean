/-
  Value engine — scripts: names and the memory of the host.

  A script drives an engine through named registers. Its host remembers which hooks
  were called.

  * `Scope`: what names stand for.
  * `Scope.resolve`, `Scope.namesOf`: from a name to an object and back.
  * `describe`, `describeFailure`: what a script is shown of objects and failures.
  * `Memory`: what the host remembers; `Act` are the actions on it.
-/
import ValueEngine.Rendering

namespace ValueEngine.Script

/-! ## Names -/

/-- What the names of a script stand for. -/
structure Scope where
  registers : Table Ref := []
  programs : Table Program := []

/-- The fixed names of the canonical objects. -/
def canonicalNames : List (Bytes × ObjId) :=
  (.ofString "@None", noneId) ::
    canonicalKinds.map fun k => (.ofString "@" ++ k.name, k.typeId)

namespace Scope

/-- What a name stands for: a canonical object, what a register holds, or nothing. -/
def resolve (s : Scope) (name : Bytes) : Ref :=
  match canonicalNames.find? fun e => e.1 == name with
  | some e => some e.2
  | none => (s.registers.find? name).join

/-- The names of an object: fixed ones first, then registers in order. -/
def namesOf (s : Scope) (i : ObjId) : List Bytes :=
  (canonicalNames.filter fun e => e.2 == i).map Prod.fst ++
    (s.registers.filter fun e => e.2 == some i).map Prod.fst

end Scope

/-! ## What a script is shown -/

/-- What a script is shown of an object. -/
structure Description where
  /-- The name of the object's kind and its text, or why it cannot be shown. -/
  shown : Except Abort (Bytes × Bytes)
  /-- The names of the object. -/
  same : List Bytes

/-- What a script is shown of a failure. -/
structure FailureReport where
  failure : Failure
  payload : Option Description

/-- A call of one of the host's hooks. -/
inductive Event
  /-- A failure was seen. `locked` tells which registers held an object that could not
      be lent for writing then, if they were tried. -/
  | failure (report : FailureReport) (locked : Option (List (Bytes × Abort)))
  /-- An operator was offered. -/
  | unsupported (op : Operator) (left right : Option Description)

/-- What the host of a script remembers. -/
structure Memory where
  /-- The calls of hooks, in order. -/
  events : List Event := []
  /-- How many functions were interpreted. -/
  interpreted : Nat := 0
  /-- How many programs were made. -/
  programCount : Nat := 0

/-- The actions of a script. -/
abbrev Act := Action Memory

/-- Changes what the host remembers. -/
def remember (f : Memory → Memory) : Act Unit := modify fun w => { w with host := f w.host }

/-- Remembers an event. -/
def emit (event : Event) : Act Unit := remember fun m => { m with events := m.events ++ [event] }

/-- Makes a program that is told apart from all others. -/
def newProgram (bytes : Bytes) : Act Program := do
  let serial := (← get).host.programCount
  remember fun m => { m with programCount := m.programCount + 1 }
  return { serial, bytes }

/-- What a script is shown of a reference; nothing of the null reference. -/
def describe (s : Scope) : Ref → Act (Option Description)
  | none => return none
  | some i => do
    let shown ← Action.attempt (withRead (some i) fun i o => return (o.kind.name, ← textOf i o))
    return some { shown, same := s.namesOf i }

/-- What a script is shown of a failure. -/
def describeFailure (s : Scope) (failure : Failure) : Act FailureReport :=
  return { failure, payload := ← describe s failure.payload }

end ValueEngine.Script

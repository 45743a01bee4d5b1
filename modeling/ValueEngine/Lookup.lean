/-
  Value engine — attributes and their look-up.

  Any object has a table of own attributes. A look-up tries the object, then its type,
  the type of that, and so on to the root.

  * `lookup`: the first binding of a name along the type links.
  * `Ref.readAttribute`, `Ref.knows`: look-ups from a reference.
  * `Ref.bindAttribute`, `Ref.unbindAttribute`: changes of own attributes.
-/
import ValueEngine.Action.Creation
import ValueEngine.Action.Lending
import ValueEngine.Action.Reporting

namespace ValueEngine

variable {σ : Type}

/-- The first binding of a name along the type links that start at a reference. The
    number bounds the length of the chain; no object is on it twice, so the number of
    objects is always enough. -/
def lookup (name : Bytes) : Nat → Ref → Action σ Ref
  | _, none => return none
  | 0, some _ => Action.abort .unfinished
  | links + 1, some i => do
    let o ← peek (some i)
    match o.attributes.find? name with
    | some value => return some value
    | none => lookup name links o.type

/-- Binds an own attribute of an object. -/
def bindOwn (i : ObjId) (name : Bytes) : Ref → Action σ Unit
  | some value =>
    Action.updateObject i fun o => { o with attributes := o.attributes.insert name value }
  | none => Action.abort .nullAttribute

/-- Unbinds an own attribute of an object. -/
def unbindOwn (i : ObjId) (name : Bytes) : Action σ Unit :=
  Action.updateObject i fun o => { o with attributes := o.attributes.erase name }

namespace Ref

/-- The binding of a name along the type links, null if there is none. -/
def binding (a : Ref) (name : Bytes) : Action σ Ref := do
  let heap ← Action.heap
  lookup name heap.size a

/-- The value of an attribute, own or inherited. -/
def readAttribute (hooks : Hooks σ) (a : Ref) (name : Bytes) : Action σ Outcome := do
  match ← binding a name with
  | some value => return .success value
  | none =>
    let object ← peek a
    fail hooks (.missingAttribute object.kind name)

/-- Whether an attribute can be found. -/
def knows (a : Ref) (name : Bytes) : Action σ Bool := return (← binding a name).isSome

/-- Binds an own attribute. -/
def bindAttribute (a : Ref) (name : Bytes) (value : Ref) : Action σ Unit :=
  withWrite a fun i _ => bindOwn i name value

/-- Unbinds an own attribute; an inherited one cannot be unbound. -/
def unbindAttribute (hooks : Hooks σ) (a : Ref) (name : Bytes) : Action σ Outcome := do
  let missing ← withWrite a fun i o => do
    if Table.contains name o.attributes then
      unbindOwn i name
      return none
    else return some o.kind
  match missing with
  | none => succeedNone
  | some kind => fail hooks (.missingAttribute kind name)

end Ref

end ValueEngine

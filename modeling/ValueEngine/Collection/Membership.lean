/-
  Value engine — membership.

  A sequence holds a value if one of its elements is that very object or equal to it.
  Elements of another kind are passed over, so mixed sequences can be searched.

  * `matchElement`: whether an element is what is looked for.
  * `scan`: the search through a sequence, up to the first match or failure.
  * `Ref.contains`: membership in any collection.
-/
import ValueEngine.Equality

namespace ValueEngine

variable {σ : Type}

/-- Whether an element is the object that is looked for, which is lent already. -/
def matchElement (hooks : Hooks σ) (j : ObjId) (needle : Object) (element : Ref) :
    Action σ Verdict :=
  if element = some j then return .equal
  else withRead element fun i candidate =>
    if candidate.kind ≠ needle.kind ∨ needle.kind.hasEquality = false then return .unequal
    else judge hooks i candidate j needle

/-- Looks for an object in a sequence. -/
def scan (hooks : Hooks σ) (j : ObjId) (needle : Object) : List Ref → Action σ Outcome
  | [] => freshValue (.boolean false)
  | element :: rest => do
    match ← matchElement hooks j needle element with
    | .equal => freshValue (.boolean true)
    | .failed cause => return .failure cause
    | .unequal => scan hooks j needle rest

/-- Whether a collection holds an object, both lent already. -/
def membership (hooks : Hooks σ) (collection : Payload) (j : ObjId) (needle : Object) :
    Action σ Outcome :=
  match collection, needle.payload with
  | .list elements, _ | .tuple elements, _ => scan hooks j needle elements
  | .dict entries, .string name => freshValue (.boolean (Table.contains name entries))
  | .dict _, key => fail hooks (.keyNotText key.kind)
  | .string text, .string part => freshValue (.boolean (part.occursIn text))
  | .string _, part => fail hooks (.needleNotText part.kind)
  | other, _ => fail hooks (.notSearchable other.kind)

/-- Whether a collection holds a value. -/
def Ref.contains (hooks : Hooks σ) (a value : Ref) : Action σ Outcome :=
  withRead a fun _ collection => withRead value fun j needle =>
    membership hooks collection.payload j needle

end ValueEngine

/-
  Value engine — canonical objects.

  An engine starts with a type object for each kind and with the one None. They live
  as long as the engine.

  * `Kind.typeId`, `noneId`: their identities.
  * `Heap.initial`: the heap of an engine that just started.
  * `get?_initial_typeId`: the canonical type of a kind is the class of its name.
-/
import ValueEngine.Heap.Basic

namespace ValueEngine

/-- The kinds in the order in which their canonical types come to be. -/
def canonicalKinds : List Kind :=
  [.classObject, .integer, .string, .boolean, .list, .tuple, .dict, .iterator, .slice,
    .nameError, .code, .function, .moduleObject, .noneObject, .nativeFunction]

/-- The canonical type of a kind. -/
def Kind.typeId : Kind → ObjId
  | .classObject => ⟨0⟩
  | .integer => ⟨1⟩
  | .string => ⟨2⟩
  | .boolean => ⟨3⟩
  | .list => ⟨4⟩
  | .tuple => ⟨5⟩
  | .dict => ⟨6⟩
  | .iterator => ⟨7⟩
  | .slice => ⟨8⟩
  | .nameError => ⟨9⟩
  | .code => ⟨10⟩
  | .function => ⟨11⟩
  | .moduleObject => ⟨12⟩
  | .noneObject => ⟨13⟩
  | .nativeFunction => ⟨14⟩

/-- The one None. -/
def noneId : ObjId := ⟨15⟩

/-- The canonical objects. -/
def canonicalIds : List ObjId := canonicalKinds.map Kind.typeId ++ [noneId]

/-- The class that is the canonical type of a kind. The type of classes is the root
    and has no type link: a link to itself would be a circle. -/
def canonicalType (k : Kind) : Object where
  payload := .classObject k.name
  type := if k = .classObject then none else some Kind.classObject.typeId

/-- The object that is the one None. -/
def canonicalNone : Object where
  payload := .noneObject
  type := some Kind.noneObject.typeId

namespace Heap

/-- The heap of an engine that just started. -/
def initial : Heap where
  cells := ((canonicalKinds.map canonicalType ++ [canonicalNone]).map some).toArray

theorem get?_initial_typeId (k : Kind) : initial.get? k.typeId = some (canonicalType k) := by
  cases k <;> rfl

theorem get?_initial_noneId : initial.get? noneId = some canonicalNone := rfl

theorem size_initial : initial.size = 16 := rfl

end Heap

theorem Kind.typeId_injective {k l : Kind} (h : k.typeId = l.typeId) : k = l := by
  revert h; cases k <;> cases l <;> decide

theorem typeId_mem_canonicalIds (k : Kind) : k.typeId ∈ canonicalIds := by
  cases k <;> decide

theorem noneId_mem_canonicalIds : noneId ∈ canonicalIds := by decide

end ValueEngine

/-
  Value engine — the kinds of values.

  * `Kind`: the fifteen kinds, each with a number and a name.
  * `Kind.ofTag?`: the kind of a number (`ofTag?_tag`).
  * `Kind.hasEquality`, `Kind.hasOrder`: the kinds that can be compared.
  * `name_injective`: a name tells the kind.
-/
import ValueEngine.Bytes

namespace ValueEngine

/-- The kind of a value; an object keeps its kind for life. -/
inductive Kind
  | string
  | integer
  | boolean
  | list
  | tuple
  | dict
  | iterator
  | slice
  | nameError
  | code
  | function
  | moduleObject
  | noneObject
  | classObject
  | nativeFunction
  deriving DecidableEq, Repr, Inhabited

namespace Kind

/-- Every kind, by ascending number. -/
def all : List Kind :=
  [.string, .integer, .boolean, .list, .tuple, .dict, .iterator, .slice, .nameError, .code,
    .function, .moduleObject, .noneObject, .classObject, .nativeFunction]

/-- The number of a kind. -/
def tag : Kind → Nat
  | string => 0
  | integer => 1
  | boolean => 2
  | list => 3
  | tuple => 4
  | dict => 5
  | iterator => 6
  | slice => 7
  | nameError => 8
  | code => 9
  | function => 10
  | moduleObject => 11
  | noneObject => 12
  | classObject => 13
  | nativeFunction => 14

/-- The kind of a number. -/
def ofTag? (tag : Int) : Option Kind :=
  all.find? fun k => (k.tag : Int) == tag

/-- The name under which programs know a kind. -/
def name : Kind → Bytes
  | string => .ofString "str"
  | integer => .ofString "int"
  | boolean => .ofString "bool"
  | list => .ofString "list"
  | tuple => .ofString "tuple"
  | dict => .ofString "dict"
  | iterator => .ofString "iterator"
  | slice => .ofString "slice"
  | nameError => .ofString "NameError"
  | code => .ofString "code"
  | function => .ofString "function"
  | moduleObject => .ofString "module"
  | noneObject => .ofString "NoneType"
  | classObject => .ofString "type"
  | nativeFunction => .ofString "native_function"

/-- The name of the kind of a number; what is of no kind is just an object. -/
def nameOfTag (tag : Int) : Bytes :=
  match ofTag? tag with
  | some k => k.name
  | none => .ofString "object"

/-- Whether values of a kind can be tested for equality. -/
def hasEquality : Kind → Bool
  | integer | string | list => true
  | _ => false

/-- Whether values of a kind are ordered. -/
def hasOrder : Kind → Bool
  | integer => true
  | _ => false

/-- Whether objects of a kind can be called. -/
def canBeCalled : Kind → Bool
  | function | nativeFunction => true
  | _ => false

theorem ofTag?_tag (k : Kind) : ofTag? k.tag = some k := by
  cases k <;> rfl

theorem tag_injective {k l : Kind} (h : k.tag = l.tag) : k = l := by
  have hk := ofTag?_tag k
  rw [h, ofTag?_tag] at hk
  exact (Option.some.inj hk).symm

theorem name_injective {k l : Kind} (h : k.name = l.name) : k = l := by
  revert h; cases k <;> cases l <;> decide

end Kind

end ValueEngine

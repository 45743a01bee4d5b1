/-
  Value engine — objects.

  * `Ref`: a reference, null or to an object.
  * `Payload`: what an object of each kind holds; `Payload.kind` is its kind and
    `Payload.slots` are the references in it, in order.
  * `Object`: a payload, a type link, own attributes and who has it now.
  * `Object.references`: the objects that an object keeps alive.
-/
import ValueEngine.Object.Kind
import ValueEngine.Object.Loan
import ValueEngine.Table

namespace ValueEngine

/-- The identity of an object. -/
structure ObjId where
  index : Nat
  deriving DecidableEq, Repr, Inhabited

/-- A reference: null, or the identity of an object. -/
abbrev Ref := Option ObjId

/-- A compiled program. The engine keeps it and never looks inside; two programs of
    the same bytes are told apart by their serial numbers. -/
structure Program where
  serial : Nat
  bytes : Bytes
  deriving DecidableEq, Repr

/-- A function of the host, known by its name. -/
structure NativeId where
  name : Bytes
  deriving DecidableEq, Repr

/-- The bounds of a slice, each of which may be absent. -/
structure SliceBounds where
  start : Option Int32
  stop : Option Int32
  step : Option Int32
  deriving DecidableEq, Repr

/-- The state of an iterator: a place in the live elements of its target, and whether
    it has ended. -/
structure Cursor where
  target : Ref
  position : Nat := 0
  exhausted : Bool := false
  deriving DecidableEq, Repr

/-- What an object holds, by kind. -/
inductive Payload
  | string (text : Bytes)
  | integer (value : Int32)
  | boolean (value : Bool)
  | list (elements : List Ref)
  | tuple (elements : List Ref)
  | dict (entries : Table Ref)
  | iterator (cursor : Cursor)
  | slice (bounds : SliceBounds)
  | nameError (name : Bytes)
  | code (program : Option Program)
  | function (program : Option Program)
  | moduleObject (name : Bytes)
  | noneObject
  | classObject (name : Bytes)
  | nativeFunction (target : Option NativeId)
  deriving DecidableEq, Repr

namespace Payload

/-- The kind of a payload. -/
def kind : Payload → Kind
  | string _ => .string
  | integer _ => .integer
  | boolean _ => .boolean
  | list _ => .list
  | tuple _ => .tuple
  | dict _ => .dict
  | iterator _ => .iterator
  | slice _ => .slice
  | nameError _ => .nameError
  | code _ => .code
  | function _ => .function
  | moduleObject _ => .moduleObject
  | noneObject => .noneObject
  | classObject _ => .classObject
  | nativeFunction _ => .nativeFunction

/-- The references in a payload: elements, dictionary values by key, or the target of
    an iterator. -/
def slots : Payload → List Ref
  | list elements | tuple elements => elements
  | dict entries => entries.values
  | iterator cursor => [cursor.target]
  | _ => []

end Payload

/-- A value of the engine. The type link is null for the root of all types and
    wherever a host leaves it out. -/
structure Object where
  payload : Payload
  type : Ref
  attributes : Table ObjId := []
  loan : Loan := .free
  deriving DecidableEq, Repr

namespace Object

/-- The kind of an object. -/
def kind (o : Object) : Kind := o.payload.kind

/-- The objects that an object keeps alive, one entry for each reference: those in
    its payload, its attribute values and its type. -/
def references (o : Object) : List ObjId :=
  o.payload.slots.filterMap id ++ o.attributes.values ++ o.type.toList

/-! ## Contents by kind

Each gives the content of an object of one kind and aborts on any other. -/

/-- The text of a string. -/
def toText (o : Object) : Except Abort Bytes :=
  match o.payload with
  | .string text => .ok text
  | _ => .error .notString

/-- The value of an integer. -/
def toInteger (o : Object) : Except Abort Int32 :=
  match o.payload with
  | .integer value => .ok value
  | _ => .error .notInteger

/-- The value of a boolean. -/
def toBoolean (o : Object) : Except Abort Bool :=
  match o.payload with
  | .boolean value => .ok value
  | _ => .error .notBoolean

/-- The elements of a list. -/
def toList (o : Object) : Except Abort (List Ref) :=
  match o.payload with
  | .list elements => .ok elements
  | _ => .error .notList

/-- The elements of a tuple. -/
def toTuple (o : Object) : Except Abort (List Ref) :=
  match o.payload with
  | .tuple elements => .ok elements
  | _ => .error .notTuple

/-- The entries of a dictionary. -/
def toDict (o : Object) : Except Abort (Table Ref) :=
  match o.payload with
  | .dict entries => .ok entries
  | _ => .error .notDict

/-- The name of a class, a module or a name error. -/
def toName (o : Object) : Except Abort Bytes :=
  match o.payload with
  | .classObject name | .moduleObject name | .nameError name => .ok name
  | _ => .error .notNamed

/-- The host function behind a native function. -/
def toNative (o : Object) : Except Abort (Option NativeId) :=
  match o.payload with
  | .nativeFunction target => .ok target
  | _ => .error .notNative

/-- The compiled program of a code object or a function. -/
def toProgram (o : Object) : Except Abort (Option Program) :=
  match o.payload with
  | .code program | .function program => .ok program
  | _ => .error .notCode

/-- The state of an iterator. -/
def toCursor (o : Object) : Except Abort Cursor :=
  match o.payload with
  | .iterator cursor => .ok cursor
  | _ => .error .notIterator

end Object

end ValueEngine

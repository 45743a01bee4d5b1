/-
  Value engine — the text of objects.

  Containers and iterators show what they hold, each part lent for reading while it
  is shown. An object met inside itself shows as an ellipsis.

  * `Payload.render`: the format of each kind, over a way to show its parts.
  * `render`: the text of an object, given the path of objects it is met in.
  * `textOf`, `Ref.text`: the text of an object that is lent and of a reference.
-/
import ValueEngine.Action.Lending
import ValueEngine.Numeral

namespace ValueEngine

variable {σ : Type}

/-- Showing objects. The state is the path of objects under way, innermost first. -/
abbrev Rendering (σ : Type) := StateT (List ObjId) (Action σ)

/-- How an object shows inside itself. -/
def Kind.ellipsis : Kind → Bytes
  | .list => .ofString "[...]"
  | .iterator => .ofString "<iter ...>"
  | _ => .ofString "\x7b...\x7d"

namespace SliceBounds

/-- The text of a bound. -/
def boundText : Option Int32 → Bytes
  | some v => Numeral.ofInt v.toInt
  | none => .ofString "None"

/-- The text of the three bounds, separated by colons. -/
def text (b : SliceBounds) : Bytes :=
  Bytes.joinWith (.ofString ":") [boundText b.start, boundText b.stop, boundText b.step]

end SliceBounds

open Bytes in
/-- The text of a payload, whose parts are shown by `part`. -/
def Payload.render (part : Ref → Rendering σ Bytes) : Payload → Rendering σ Bytes
  | string text => return text
  | integer value => return Numeral.ofInt value.toInt
  | boolean value => return ofString (if value then "true" else "false")
  | list elements => do
    let parts ← elements.mapM part
    return ofString "[" ++ joinWith (ofString ", ") parts ++ ofString "]"
  | tuple elements => do
    let parts ← elements.mapM part
    return ofString "\x7b" ++ joinWith (ofString ", ") parts ++ ofString "\x7d"
  | dict entries => do
    let parts ← entries.mapM fun e => return quoted e.1 ++ ofString ": " ++ (← part e.2)
    return ofString "\x7b" ++ joinWith (ofString ", ") parts ++ ofString "\x7d"
  | iterator cursor => do
    let target ← part cursor.target
    return ofString "<iter pos " ++ Numeral.ofNat cursor.position ++ ofString " in " ++ target ++
      ofString ">"
  | slice bounds => return ofString "<slice " ++ quoted bounds.text ++ ofString ">"
  | nameError name => return ofString "<NameError " ++ quoted name ++ ofString ">"
  | code _ => return ofString "<code>"
  | function _ => return ofString "<func>"
  | moduleObject name => return ofString "<module " ++ quoted name ++ ofString ">"
  | noneObject => return ofString "None"
  | classObject name => return ofString "<class " ++ quoted name ++ ofString ">"
  | nativeFunction _ => return ofString "<native function>"

/-- The text of an object. The number bounds the depth; the path never holds an object
    twice, so the number of objects and one more is always enough. -/
def render : Nat → ObjId → Object → Rendering σ Bytes
  | 0, _, _ => fun _ => Action.abort .unfinished
  | depth + 1, i, o => fun path =>
    if i ∈ path then return (o.kind.ellipsis, path)
    else do
      let part := fun r path => withRead r fun j p => render depth j p path
      let (text, path) ← o.payload.render part (i :: path)
      return (text, path.tail)

/-- The text of an object that is lent already. -/
def textOf (i : ObjId) (o : Object) : Action σ Bytes := do
  let heap ← Action.heap
  let (text, _) ← render (heap.size + 1) i o []
  return text

/-- The text of what a reference refers to. -/
def Ref.text (r : Ref) : Action σ Bytes :=
  if r.isNone then return .ofString "<null>" else withRead r textOf

end ValueEngine

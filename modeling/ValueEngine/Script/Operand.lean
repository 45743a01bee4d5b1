/-
  Value engine — scripts: operands.

  An operand describes a reference: by a name, or by an object to be made for it.

  * `Operand`, `Literal`: references and payloads as they are written in a script.
  * `Operand.eval`: the reference that an operand describes, its parts made first, from
    left to right.
-/
import ValueEngine.Action.Creation
import ValueEngine.Script.Scope

namespace ValueEngine.Script

/-- Where a compiled program comes from. -/
inductive ProgramSource
  | null
  | named (name : Bytes)
  | new (content : Bytes)

mutual

/-- A reference as it is written in a script. -/
inductive Operand
  | null
  | named (name : Bytes)
  /-- A new object of the canonical type of its kind. -/
  | fresh (literal : Literal)
  /-- A new object with any type, in which null parts are allowed. -/
  | made (literal : Option Literal) (type : Operand)

/-- A payload as it is written in a script. -/
inductive Literal
  | string (text : Bytes)
  | integer (value : Int32)
  | boolean (value : Bool)
  | list (elements : List Operand)
  | tuple (elements : List Operand)
  | dict (entries : List (Bytes × Operand))
  | iterator (target : Operand)
  | slice (bounds : SliceBounds)
  | nameError (name : Bytes)
  | code (program : ProgramSource)
  | function (program : ProgramSource)
  | moduleObject (name : Bytes)
  | noneObject
  | classObject (name : Bytes)
  | nativeFunction (target : Option NativeId)

end

/-- The program from a source. -/
def ProgramSource.eval (s : Scope) : ProgramSource → Act (Option Program)
  | null => return none
  | named name => return s.programs.find? name
  | new content => return some (← newProgram content)

mutual

/-- The reference that an operand describes. -/
def Operand.eval (s : Scope) : Operand → Act Ref
  | .null => return none
  | .named name => return s.resolve name
  | .fresh literal => do return some (← ValueEngine.fresh (← literal.eval s))
  | .made (some literal) type => do
    let payload ← literal.eval s
    return some (← make (some payload) (← type.eval s))
  | .made none type => do return some (← make none (← type.eval s))

/-- The payload that a literal describes. -/
def Literal.eval (s : Scope) : Literal → Act Payload
  | .string text => return .string text
  | .integer value => return .integer value
  | .boolean value => return .boolean value
  | .list elements => return .list (← evalAll s elements)
  | .tuple elements => return .tuple (← evalAll s elements)
  | .dict entries => return .dict (Table.ofList (← evalEntries s entries))
  | .iterator target => return .iterator { target := ← target.eval s }
  | .slice bounds => return .slice bounds
  | .nameError name => return .nameError name
  | .code program => return .code (← program.eval s)
  | .function program => return .function (← program.eval s)
  | .moduleObject name => return .moduleObject name
  | .noneObject => return .noneObject
  | .classObject name => return .classObject name
  | .nativeFunction target => return .nativeFunction target

/-- The references that operands describe, from left to right. -/
def evalAll (s : Scope) : List Operand → Act (List Ref)
  | [] => return []
  | operand :: rest => do
    let r ← operand.eval s
    return r :: (← evalAll s rest)

/-- The entries that operands under keys describe, from left to right. -/
def evalEntries (s : Scope) : List (Bytes × Operand) → Act (List (Bytes × Ref))
  | [] => return []
  | (key, operand) :: rest => do
    let r ← operand.eval s
    return (key, r) :: (← evalEntries s rest)

end

end ValueEngine.Script

/-
  Value engine — creation of objects.

  * `make`: the single way to make an object, with any type link.
  * `Payload.missingPart?`: the abort that a null part of a payload causes.
  * `fresh`: a new object of the canonical type of its kind, without null parts.
-/
import ValueEngine.Action.Basic

namespace ValueEngine

variable {σ : Type}

/-- Makes an object. There is none without a payload. -/
def make (payload : Option Payload) (type : Ref) : Action σ ObjId :=
  match payload with
  | some payload => Action.allocate { payload, type }
  | none => Action.abort .objectWithoutPayload

/-- The abort that a null part of a payload causes, if it has one. -/
def Payload.missingPart? : Payload → Option Abort
  | list elements => if elements.any Option.isNone then some .nullListElement else none
  | tuple elements => if elements.any Option.isNone then some .nullTupleElement else none
  | dict entries => if entries.values.any Option.isNone then some .nullDictValue else none
  | iterator cursor => if cursor.target.isNone then some .iteratorWithoutTarget else none
  | code none => some .codeWithoutProgram
  | function none => some .functionWithoutProgram
  | nativeFunction none => some .nativeWithoutTarget
  | _ => none

/-- Makes an object of the canonical type of its kind, provided that no part of it is
    null. -/
def fresh (payload : Payload) : Action σ ObjId :=
  match payload.missingPart? with
  | some e => Action.abort e
  | none => make (some payload) (some payload.kind.typeId)

/-- The success that holds a new object. -/
def freshValue (payload : Payload) : Action σ Outcome := return .success (← fresh payload)

/-- The success that holds None. -/
def succeedNone : Action σ Outcome := return .success noneId

theorem Payload.isLoanConflict_of_missingPart? {p : Payload} {e : Abort}
    (h : p.missingPart? = some e) : e.isLoanConflict = false := by
  unfold missingPart? at h
  split at h
  case h_8 => cases h
  all_goals first | (split at h <;> cases h; rfl) | (cases h; rfl)

theorem Payload.none_not_mem_slots {p : Payload} (h : p.missingPart? = none) : none ∉ p.slots := by
  cases p with
  | iterator cursor => cases ht : cursor.target <;> simp_all [missingPart?, slots]
  | _ => simp_all [missingPart?, slots]

end ValueEngine

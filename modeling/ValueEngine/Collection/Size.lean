/-
  Value engine — the size of collections, and growth.

  * `Payload.length?`: how much a payload holds, where that can be counted.
  * `Payload.truth`: whether a payload counts as true.
  * `Ref.length`, `Ref.truth`: the same of a reference.
  * `Ref.append`: adds a last element to a list.
-/
import ValueEngine.Checked
import ValueEngine.Collection.Item

namespace ValueEngine

variable {σ : Type}

namespace Payload

/-- How much a payload holds, for the kinds that hold something countable. -/
def length? : Payload → Option Nat
  | string text => some text.length
  | list elements | tuple elements => some elements.length
  | dict entries => some entries.length
  | _ => none

/-- Whether a payload counts as true: empty collections, zero and None do not. -/
def truth : Payload → Bool
  | boolean value => value
  | integer value => value != 0
  | string text => !text.isEmpty
  | list elements | tuple elements => !elements.isEmpty
  | dict entries => !entries.isEmpty
  | noneObject => false
  | _ => true

/-- A list with one more element, or why there is none. -/
def appended? (collection : Payload) (value : Ref) : Except Failure Payload :=
  match collection with
  | list elements => .ok (list (elements ++ [value]))
  | other => .error (.noAppend other.kind)

theorem truth_eq_of_length? {p : Payload} {n : Nat} (h : p.length? = some n) :
    p.truth = (n != 0) := by
  cases p with
  | string xs | list xs | tuple xs | dict xs => cases h; cases xs <;> rfl
  | _ => cases h

end Payload

/-- A length as an integer. -/
def lengthOutcome (hooks : Hooks σ) (length : Nat) : Action σ Outcome :=
  match Checked.ofInt? length with
  | some value => freshValue (.integer value)
  | none => fail hooks .lengthOverflow

namespace Ref

/-- How much a collection holds. -/
def length (hooks : Hooks σ) (a : Ref) : Action σ Outcome :=
  withRead a fun _ collection =>
    match collection.payload.length? with
    | some n => lengthOutcome hooks n
    | none => fail hooks (.noLength collection.kind)

/-- Whether a value counts as true. -/
def truth (a : Ref) : Action σ Bool := withRead a fun _ o => return o.payload.truth

/-- Adds a last element to a list. -/
def append (hooks : Hooks σ) (a value : Ref) : Action σ Outcome := do
  if value.isNone then Action.abort .nullAppended
  withWrite a fun i collection => replaceOrFail hooks i (collection.payload.appended? value)

end Ref

end ValueEngine

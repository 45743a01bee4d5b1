/-
  Value engine — the items of collections.

  * `itemOf`: what a collection holds under a key: an element by index, a selection by
    slice, or a value by name.
  * `Ref.item`: looks an item up.
  * `Ref.store`: replaces a list element or stores a dictionary entry.
-/
import ValueEngine.Action.Creation
import ValueEngine.Action.Lending
import ValueEngine.Action.Reporting
import ValueEngine.Collection.Position

namespace ValueEngine

variable {σ : Type}

/-- An element or a selection of a sequence of references; `whole` makes the selection
    a payload. -/
def sequenceItem (hooks : Hooks σ) (whole : List Ref → Payload) (elements : List Ref)
    (key : Payload) : Action σ Outcome :=
  match key with
  | .integer index =>
    match position? index elements.length with
    | some place => Action.succeed (elements[place]?).join
    | none => fail hooks (.indexOutOfRange (whole []).kind)
  | .slice bounds =>
    match bounds.select? elements with
    | some selected => freshValue (whole selected)
    | none => fail hooks .stepIsZero
  | key => fail hooks (.badIndex (whole []).kind key.kind)

/-- A byte or a selection of a string. -/
def textItem (hooks : Hooks σ) (text : Bytes) (key : Payload) : Action σ Outcome :=
  match key with
  | .integer index =>
    match position? index text.length with
    | some place => freshValue (.string (text[place]?).toList)
    | none => fail hooks (.indexOutOfRange .string)
  | .slice bounds =>
    match bounds.select? text with
    | some selected => freshValue (.string selected)
    | none => fail hooks .stepIsZero
  | key => fail hooks (.badIndex .string key.kind)

/-- The value under a name in a dictionary. -/
def entryItem (hooks : Hooks σ) (entries : Table Ref) (key : Payload) : Action σ Outcome :=
  match key with
  | .string name =>
    match entries.find? name with
    | some value => Action.succeed value
    | none => fail hooks (.missingKey name)
  | key => fail hooks (.keyNotText key.kind)

/-- What a collection holds under a key. -/
def itemOf (hooks : Hooks σ) (collection key : Payload) : Action σ Outcome :=
  match collection with
  | .list elements => sequenceItem hooks .list elements key
  | .tuple elements => sequenceItem hooks .tuple elements key
  | .string text => textItem hooks text key
  | .dict entries => entryItem hooks entries key
  | other => fail hooks (.noItems other.kind)

/-- A collection with a value stored under a key, or why there is none. -/
def Payload.stored? (collection key : Payload) (value : Ref) : Except Failure Payload :=
  match collection, key with
  | .list elements, .integer index =>
    match position? index elements.length with
    | some place => .ok (.list (elements.set place value))
    | none => .error .assignmentOutOfRange
  | .list _, key => .error (.badListIndex key.kind)
  | .dict entries, .string name => .ok (.dict (entries.insert name value))
  | .dict _, key => .error (.keyNotText key.kind)
  | other, _ => .error (.noItemAssignment other.kind)

/-- Puts a changed payload in place, or fails. -/
def replaceOrFail (hooks : Hooks σ) (i : ObjId) : Except Failure Payload → Action σ Outcome
  | .ok payload => do
    Action.setPayload i payload
    succeedNone
  | .error cause => fail hooks cause

namespace Ref

/-- What a collection holds under a key. -/
def item (hooks : Hooks σ) (a key : Ref) : Action σ Outcome :=
  withRead a fun _ collection => withRead key fun _ key =>
    itemOf hooks collection.payload key.payload

/-- Stores a value under a key of a list or a dictionary. The key is given back before
    the collection is lent, so it may be the collection itself. -/
def store (hooks : Hooks σ) (a key value : Ref) : Action σ Outcome := do
  if value.isNone then Action.abort .nullStored
  let key ← peek key
  withWrite a fun i collection =>
    replaceOrFail hooks i (collection.payload.stored? key.payload value)

end Ref

theorem kind_stored? {p key q : Payload} {value : Ref} (h : p.stored? key value = .ok q) :
    q.kind = p.kind := by
  unfold Payload.stored? at h
  split at h
  · split at h <;> cases h
    rfl
  all_goals cases h
  rfl

end ValueEngine

/-
  Value engine — guards.

  A guard is a loan that a host keeps for as long as it likes. It gives access to its
  object without a further loan, and it may be moved, which leaves an empty guard
  behind.

  * `Ref.guard`: a guard for reading or for writing.
  * `Guard.release`: ends the loan; an empty guard has none to end.
  * `Guard.object`: the object as it is now.
  * `Guard.push`, `Guard.truncate`, …: changes of the object in place.
-/
import ValueEngine.Lookup

namespace ValueEngine

variable {σ : Type}

/-- A loan in the hands of a host. -/
structure Guard where
  /-- The object that is lent, unless the guard was moved. -/
  held : Option ObjId
  /-- What it is lent for. -/
  access : Access
  deriving DecidableEq, Repr

/-- A guard for the object behind a reference. -/
def Ref.guard (access : Access) (r : Ref) : Action σ Guard := do
  let (i, _) ← takeLoan access r
  return { held := some i, access }

namespace Guard

/-- A guard without an object. -/
def empty : Guard where
  held := none
  access := .read

/-- What is left of a guard that was moved. -/
def moved (g : Guard) : Guard := { g with held := none }

/-- Ends the loan of a guard. -/
def release (g : Guard) : Action σ Unit :=
  match g.held with
  | some i => modify (World.endLoan g.access i)
  | none => return ()

/-- The object of a guard, as it is now. -/
def object (g : Guard) : Action σ (ObjId × Object) := do
  let heap ← Action.heap
  match g.held with
  | some i =>
    match heap.get? i with
    | some o => return (i, o)
    | none => Action.abort .nullReference
  | none => Action.abort .nullReference

/-- The object of a guard is a live one. -/
theorem object_ok {g : Guard} {w w' : World σ} {i : ObjId} {o : Object}
    (h : g.object w = .ok (i, o) w') : w' = w ∧ g.held = some i ∧ w.heap.get? i = some o := by
  have hheap : (Action.heap : Action σ Heap) w = .ok w.heap w := rfl
  rw [object, Action.bind_of_ok hheap] at h
  cases hg : g.held with
  | none =>
    simp only [hg] at h
    cases h
  | some j =>
    cases ho : w.heap.get? j with
    | none =>
      simp only [hg, ho] at h
      cases h
    | some p =>
      simp only [hg, ho] at h
      cases h
      exact ⟨rfl, rfl, ho⟩

/-- A guard whose object is there gives access to it. -/
theorem object_eq {g : Guard} {w : World σ} {i : ObjId} {o : Object} (hg : g.held = some i)
    (ho : w.heap.get? i = some o) : g.object w = .ok (i, o) w := by
  have hheap : (Action.heap : Action σ Heap) w = .ok w.heap w := rfl
  rw [object, Action.bind_of_ok hheap]
  simp only [hg, ho]
  rfl

/-- To look at the object of a guard changes nothing. -/
theorem after_object (g : Guard) (w : World σ) : (g.object : Action σ _).after w = w := by
  have hheap : (Action.heap : Action σ Heap) w = .ok w.heap w := rfl
  simp only [Action.after, object, Action.bind_of_ok hheap]
  cases g.held with
  | none => rfl
  | some i => cases h : w.heap.get? i <;> simp only [h] <;> rfl

/-! ## Changes in place -/

/-- Changes the elements of a list. -/
def updateList (g : Guard) (f : List Ref → List Ref) : Action σ Unit := do
  let (i, o) ← g.object
  let elements ← Action.ofExcept o.toList
  Action.setPayload i (.list (f elements))

/-- Changes the entries of a dictionary and gives those that were there. -/
def updateDict (g : Guard) (f : Table Ref → Table Ref) : Action σ (Table Ref) := do
  let (i, o) ← g.object
  let entries ← Action.ofExcept o.toDict
  Action.setPayload i (.dict (f entries))
  return entries

/-- Adds a last element, which may be null, to a list. -/
def push (g : Guard) (value : Ref) : Action σ Unit := g.updateList (· ++ [value])

/-- Shortens a list to a length. -/
def truncate (g : Guard) (length : Nat) : Action σ Unit := g.updateList (·.take length)

/-- Stores an entry, whose value may be null, in a dictionary. -/
def insertEntry (g : Guard) (key : Bytes) (value : Ref) : Action σ Unit :=
  discard (g.updateDict (·.insert key value))

/-- Removes an entry of a dictionary and tells whether there was one. -/
def eraseEntry (g : Guard) (key : Bytes) : Action σ Bool :=
  return (← g.updateDict (·.erase key)).contains key

/-- The own attribute of a name, null if there is none. -/
def ownAttribute (g : Guard) (name : Bytes) : Action σ Ref := do
  let (_, o) ← g.object
  return o.attributes.find? name

/-- Binds an own attribute. -/
def bindAttribute (g : Guard) (name : Bytes) (value : Ref) : Action σ Unit := do
  let (i, _) ← g.object
  bindOwn i name value

/-- Unbinds an own attribute and tells whether there was one. -/
def unbindAttribute (g : Guard) (name : Bytes) : Action σ Bool := do
  let (i, o) ← g.object
  unbindOwn i name
  return Table.contains name o.attributes

end Guard

end ValueEngine

/-
  Value engine — iteration.

  An iterator is a cursor over the live elements of its target: the length is read anew
  at each step, so changes of the target are seen. Once it has ended it stays ended.

  * `Cursor.next`: a step of a cursor over given elements.
  * `Payload.movedTo`: an iterator after a step.
  * `Ref.iterate`: an iterator over a list or a tuple.
  * `Ref.next`: the next element of an iterator.
  * `next_of_exhausted`: the end is for good.
-/
import ValueEngine.Action.Creation
import ValueEngine.Action.Lending
import ValueEngine.Action.Reporting

namespace ValueEngine

variable {σ : Type}

/-- The elements of a sequence that can be iterated over. -/
def Payload.elements? : Payload → Option (List Ref)
  | .list elements | .tuple elements => some elements
  | _ => none

theorem Payload.elements?_eq_none_iff {p : Payload} :
    p.elements? = none ↔ p.kind ≠ .list ∧ p.kind ≠ .tuple := by
  cases p <;> simp [elements?, kind]

/-- An iterator at the place of a cursor, with the target that it has; its target is for
    life. -/
def Payload.movedTo (cursor : Cursor) : Payload → Payload
  | .iterator c => .iterator { c with position := cursor.position, exhausted := cursor.exhausted }
  | other => other

namespace Cursor

/-- A step of a cursor over some elements: the cursor after it and the element that it
    passed, if it has not come to the end. -/
def next (c : Cursor) (elements : List Ref) : Cursor × Option Ref :=
  if c.exhausted then (c, none)
  else
    match elements[c.position]? with
    | some element => ({ c with position := c.position + 1 }, some element)
    | none => ({ c with exhausted := true }, none)

theorem next_of_exhausted {c : Cursor} (h : c.exhausted = true) (elements : List Ref) :
    c.next elements = (c, none) := by
  simp [next, h]

theorem next_of_lt {c : Cursor} {elements : List Ref} {element : Ref} (h : c.exhausted = false)
    (he : elements[c.position]? = some element) :
    c.next elements = ({ c with position := c.position + 1 }, some element) := by
  simp [next, h, he]

theorem next_of_ge {c : Cursor} {elements : List Ref} (h : c.exhausted = false)
    (he : elements.length ≤ c.position) :
    c.next elements = ({ c with exhausted := true }, none) := by
  simp [next, h, he]

theorem next_target (c : Cursor) (elements : List Ref) : (c.next elements).1.target = c.target := by
  unfold next
  split
  · rfl
  · split <;> rfl

/-- An iterator after a step is over the cursor after it. -/
theorem movedTo_next (c : Cursor) (elements : List Ref) :
    (Payload.iterator c).movedTo (c.next elements).1 = .iterator (c.next elements).1 := by
  have ht := next_target c elements
  cases hc : (c.next elements).1
  rw [hc] at ht
  subst ht
  rfl

theorem mem_of_next {c : Cursor} {elements : List Ref} {element : Ref}
    (h : (c.next elements).2 = some element) : element ∈ elements := by
  unfold next at h
  split at h
  · cases h
  · split at h <;> cases h
    rename_i helement
    exact List.mem_of_getElem? helement

theorem next_eq_none_iff {c : Cursor} {elements : List Ref} :
    (c.next elements).2 = none ↔ c.exhausted = true ∨ elements.length ≤ c.position := by
  unfold next
  split
  · simp [*]
  · split
    · rename_i h
      obtain ⟨hlt, -⟩ := List.getElem?_eq_some_iff.1 h
      simp_all
    · rename_i h
      simp [List.getElem?_eq_none_iff.1 h]

end Cursor

/-- The outcome of a step: the element passed, or the end. -/
def stepOutcome : Option Ref → Action σ Outcome
  | some element => Action.succeed element
  | none => return .exhausted

namespace Ref

/-- An iterator over a list or a tuple. -/
def iterate (hooks : Hooks σ) (target : Ref) : Action σ Outcome := do
  let object ← peek target
  match object.payload.elements? with
  | some _ => freshValue (.iterator { target })
  | none => fail hooks (.notIterable object.kind)

/-- The next element of an iterator. The cursor moves before the element is handed
    over. -/
def next (hooks : Hooks σ) (a : Ref) : Action σ Outcome :=
  withWrite a fun i object =>
    match object.payload with
    | .iterator cursor => withRead cursor.target fun _ target =>
      match target.payload.elements? with
      | some elements => do
        let (moved, element) := cursor.next elements
        Action.updateObject i fun o => { o with payload := o.payload.movedTo moved }
        stepOutcome element
      | none => fail hooks (.notIterable target.kind)
    | payload => fail hooks (.notIterator payload.kind)

end Ref

end ValueEngine

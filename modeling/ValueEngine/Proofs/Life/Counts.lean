/-
  Value engine — what a reference count is made of.

  The number of references to an object is a sum with a part for each place that a
  reference can stand in: the payload of a live object, its attributes, its type, and for
  the host of a script its registers, its guards and the engine's own objects.

  * `Payload.mentions`, `Object.mentions`, `Heap.mentions`: how often these refer to an
    object.
  * `Session.mentions`: the same for what a session holds.
  * `Heap.referenceCount_eq`, `Session.count_roots`: a reference count is their sum.
-/
import Mathlib.Algebra.GroupWithZero.Nat
import ValueEngine.Heap.Liveness
import ValueEngine.Script.Session

namespace ValueEngine

/-- How often a payload refers to an object: as an element, as the value of an entry, or
    as the target of an iterator. -/
def Payload.mentions (i : ObjId) : Payload → Nat
  | .list elements | .tuple elements => elements.count (some i)
  | .dict entries => entries.values.count (some i)
  | .iterator cursor => if cursor.target = some i then 1 else 0
  | _ => 0

/-- How often an object refers to another: from its payload, by attributes and by its
    type. -/
def Object.mentions (i : ObjId) (o : Object) : Nat :=
  o.payload.mentions i + o.attributes.values.count i + if o.type = some i then 1 else 0

namespace Heap

/-- How often what has an identity refers to an object; what is gone does not. -/
def mentionsOf (h : Heap) (i j : ObjId) : Nat := (h.get? j).elim 0 (Object.mentions i)

/-- How often the live objects refer to an object, all together. -/
def mentions (h : Heap) (i : ObjId) : Nat :=
  ((List.range h.size).map fun n => h.mentionsOf i ⟨n⟩).sum

end Heap

/-! ## Objects -/

theorem count_filterMap_id (i : ObjId) (rs : List Ref) :
    (rs.filterMap id).count i = rs.count (some i) := by
  induction rs with
  | nil => rfl
  | cons r rs ih =>
    cases r with
    | none =>
      show (rs.filterMap id).count i = (none :: rs).count (some i)
      rw [ih, List.count_cons_of_ne (by simp)]
    | some j =>
      show (j :: rs.filterMap id).count i = (some j :: rs).count (some i)
      rw [List.count_cons, List.count_cons, ih]
      simp

theorem Payload.count_slots (i : ObjId) (p : Payload) : p.slots.count (some i) = p.mentions i := by
  cases p with
  | iterator cursor => simp [slots, mentions, List.count_singleton]
  | _ => rfl

theorem Object.count_references (i : ObjId) (o : Object) :
    o.references.count i = o.mentions i := by
  have htype : o.type.toList.count i = if o.type = some i then 1 else 0 := by
    cases o.type <;> simp [List.count_singleton]
  rw [references, List.count_append, List.count_append, count_filterMap_id,
    Payload.count_slots, htype, mentions]

/-! ## Heaps -/

namespace Heap

theorem cells_eq (h : Heap) : h.cells.toList = (List.range h.size).map fun n => h.get? ⟨n⟩ := by
  refine List.ext_getElem (by simp [size]) fun n hn _ => ?_
  have hn' : n < h.cells.size := by simpa using hn
  simp [get?, hn']

theorem count_references (h : Heap) (i : ObjId) : h.references.count i = h.mentions i := by
  rw [references, List.count_flatMap, cells_eq, List.map_map, mentions]
  congr 1
  refine List.map_congr_left fun n _ => ?_
  simp only [Function.comp_apply, mentionsOf]
  cases h.get? ⟨n⟩ with
  | none => rfl
  | some o => exact o.count_references i

theorem referenceCount_eq (h : Heap) (roots : List ObjId) (i : ObjId) :
    h.referenceCount roots i = roots.count i + h.mentions i := by
  rw [referenceCount, holders, List.count_append, count_references]

end Heap

/-! ## Sessions -/

namespace Script.Session

/-- How often a session holds an object itself: among the engine's own objects, in
    registers and by guards. -/
def mentions (s : Session) (i : ObjId) : Nat :=
  canonicalIds.count i + s.scope.registers.values.count (some i) +
    (s.guards.values.map Guard.held).count (some i)

theorem count_roots (s : Session) (i : ObjId) : s.roots.count i = s.mentions i := by
  have hguards : s.guards.values.filterMap Guard.held =
      (s.guards.values.map Guard.held).filterMap id := by
    rw [List.filterMap_map]
    rfl
  rw [roots, List.count_append, List.count_append, hguards, count_filterMap_id,
    count_filterMap_id, mentions]

end Script.Session

end ValueEngine

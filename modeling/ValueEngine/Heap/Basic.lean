/-
  Value engine — the heap.

  * `Heap`: a cell per identity ever given out; a reclaimed object leaves its
    cell empty, so no identity comes back.
  * `Heap.get?`, `Heap.set`, `Heap.remove`, `Heap.allocate`: access to one object.
  * `get?_set_self`, `get?_set_of_ne`, `get?_allocate_self`,
    `get?_allocate_of_some`: what an update shows.
-/
import ValueEngine.Object.Basic

namespace ValueEngine

/-- The objects of an engine by identity. -/
structure Heap where
  cells : Array (Option Object)
  deriving DecidableEq

namespace Heap

/-- The live object with a given identity. -/
def get? (h : Heap) (i : ObjId) : Option Object := h.cells[i.index]?.join

/-- The number of identities given out so far. -/
def size (h : Heap) : Nat := h.cells.size

/-- Replaces the object in an existing cell. -/
def set (h : Heap) (i : ObjId) (o : Object) : Heap :=
  ⟨h.cells.setIfInBounds i.index (some o)⟩

/-- Empties a cell. -/
def remove (h : Heap) (i : ObjId) : Heap :=
  ⟨h.cells.setIfInBounds i.index none⟩

/-- Changes a live object; nothing happens to an empty cell. -/
def update (h : Heap) (i : ObjId) (f : Object → Object) : Heap :=
  match h.get? i with
  | some o => h.set i (f o)
  | none => h

/-- Adds an object under a new identity. -/
def allocate (h : Heap) (o : Object) : ObjId × Heap :=
  (⟨h.cells.size⟩, ⟨h.cells.push (some o)⟩)

/-- The identities of the live objects, ascending. -/
def ids (h : Heap) : List ObjId :=
  ((List.range h.size).map ObjId.mk).filter fun i => (h.get? i).isSome

/-! ## What the heap shows after an update -/

theorem lt_size_of_get? {h : Heap} {i : ObjId} {o : Object} (ho : h.get? i = some o) :
    i.index < h.size := by
  unfold get? at ho
  rcases Nat.lt_or_ge i.index h.cells.size with hlt | hge
  · exact hlt
  · simp [Array.getElem?_eq_none hge] at ho

@[simp] theorem size_set (h : Heap) (i : ObjId) (o : Object) : (h.set i o).size = h.size := by
  simp [set, size]

@[simp] theorem size_update (h : Heap) (i : ObjId) (f : Object → Object) :
    (h.update i f).size = h.size := by
  unfold update; split <;> simp

theorem get?_set_self {h : Heap} {i : ObjId} (hi : i.index < h.size) (o : Object) :
    (h.set i o).get? i = some o := by
  have hi' : i.index < h.cells.size := hi
  simp [get?, set, hi']

theorem get?_set_of_ne {h : Heap} {i j : ObjId} (hne : j ≠ i) (o : Object) :
    (h.set i o).get? j = h.get? j := by
  have : i.index ≠ j.index := fun e => hne (by cases i; cases j; simp_all)
  simp [get?, set, this]

theorem get?_update_self (h : Heap) (i : ObjId) (f : Object → Object) :
    (h.update i f).get? i = (h.get? i).map f := by
  unfold update
  cases ho : h.get? i with
  | none => simp [ho]
  | some o => simp [get?_set_self (lt_size_of_get? ho)]

theorem get?_update_of_ne {h : Heap} {i j : ObjId} (hne : j ≠ i) (f : Object → Object) :
    (h.update i f).get? j = h.get? j := by
  unfold update
  cases h.get? i with
  | none => rfl
  | some o => exact get?_set_of_ne hne _

theorem get?_allocate_self (h : Heap) (o : Object) :
    (h.allocate o).2.get? (h.allocate o).1 = some o := by
  simp [get?, allocate]

theorem get?_allocate_of_some {h : Heap} {i : ObjId} {p : Object} (hp : h.get? i = some p)
    (o : Object) : (h.allocate o).2.get? i = some p := by
  have hi : i.index < h.cells.size := lt_size_of_get? hp
  simp only [get?, allocate, Array.getElem?_push]
  rw [if_neg (Nat.ne_of_lt hi)]
  exact hp

theorem get?_allocate_of_ne {h : Heap} {o : Object} {i : ObjId} (hne : i ≠ (h.allocate o).1) :
    (h.allocate o).2.get? i = h.get? i := by
  have : i.index ≠ h.cells.size := fun e => hne (by cases i; simp_all [allocate])
  simp [get?, allocate, Array.getElem?_push, this]

theorem get?_allocate_fst (h : Heap) (o : Object) : h.get? (h.allocate o).1 = none := by
  simp [get?, allocate]

/-- What holds of every cell holds of every object. -/
theorem forall_get? {P : Object → Prop} {h : Heap}
    (hcells : ∀ cell ∈ h.cells.toList, ∀ o, cell = some o → P o) {i : ObjId} {o : Object}
    (ho : h.get? i = some o) : P o := by
  rw [get?, Option.join_eq_some_iff] at ho
  obtain ⟨hlt, hcell⟩ := Array.getElem?_eq_some_iff.1 ho
  exact hcells _ (Array.getElem_mem_toList hlt) o hcell

/-- A heap is its size and what it shows. -/
theorem ext_get? {h h' : Heap} (hsize : h.size = h'.size) (hget : ∀ i, h.get? i = h'.get? i) :
    h = h' := by
  obtain ⟨cells⟩ := h
  obtain ⟨cells'⟩ := h'
  congr 1
  refine Array.ext hsize fun n hn hn' => ?_
  simpa [get?, hn, hn'] using hget ⟨n⟩

/-- What was replaced can be put back. -/
theorem update_set {h : Heap} {i : ObjId} {o p : Object} {f : Object → Object}
    (ho : h.get? i = some o) (hf : f p = o) : (h.set i p).update i f = h := by
  refine ext_get? (by simp) fun j => ?_
  by_cases hji : j = i
  · subst hji
    simp [get?_update_self, get?_set_self (lt_size_of_get? ho), hf, ho]
  · rw [get?_update_of_ne hji, get?_set_of_ne hji]

theorem mem_ids {h : Heap} {i : ObjId} : i ∈ h.ids ↔ (h.get? i).isSome := by
  simp only [ids, List.mem_filter, List.mem_map, List.mem_range]
  constructor
  · exact fun hi => hi.2
  · intro hi
    obtain ⟨o, ho⟩ := Option.isSome_iff_exists.1 hi
    exact ⟨⟨i.index, lt_size_of_get? ho, rfl⟩, hi⟩

end Heap

end ValueEngine

/-
  Value engine — what objects hold.

  * `Contents`: what each object holds, by identity; `Heap.contents` reads it off.
  * `Contents.Filled`: objects without null slots.
  * `Contents.Ordered`: dictionaries whose keys ascend.
  * `Heap.Unwritten`: a heap with nothing lent for writing.
  * `filled_of_cells`, `ordered_of_cells`, `unwritten_of_cells`: of a heap whose cells are
    known.
  * `of_contents_update`, `of_contents_allocate`, `contents_set`, `Unwritten.set`,
    `Unwritten.allocate`: what a single step makes of them.
-/
import ValueEngine.Heap.Basic

namespace ValueEngine

/-- What each object holds, by identity. -/
abbrev Contents := ObjId → Option Payload

/-- What each object of a heap holds. -/
def Heap.contents (h : Heap) : Contents := fun i => (h.get? i).map Object.payload

/-- No slot is null: every reference in an object is to an object. -/
def Contents.Filled (c : Contents) : Prop :=
  ∀ i a, c i = some a → ∀ r ∈ a.slots, (r.bind c).isSome

theorem Contents.Filled.slot {c : Contents} (hc : c.Filled) {i : ObjId} {a : Payload} {r : Ref}
    (ha : c i = some a) (hr : r ∈ a.slots) : ∃ k b, r = some k ∧ c k = some b := by
  obtain ⟨b, hb⟩ := Option.isSome_iff_exists.1 (hc i a ha r hr)
  obtain ⟨k, rfl, hk⟩ := Option.bind_eq_some_iff.1 hb
  exact ⟨k, b, rfl, hk⟩

/-- Every dictionary lists its keys in ascending order, which is how dictionaries are
    built. -/
def Contents.Ordered (c : Contents) : Prop :=
  ∀ i entries, c i = some (.dict entries) → entries.Ascending

/-- No object is lent for writing. -/
def Heap.Unwritten (h : Heap) : Prop := ∀ i o, h.get? i = some o → o.loan ≠ .exclusive

namespace Heap

variable {h : Heap} {i : ObjId} {o : Object}

theorem contents_of_get? (ho : h.get? i = some o) : h.contents i = some o.payload := by
  simp [contents, ho]

theorem payload_of_contents {p : Payload} (ho : h.get? i = some o) (hp : h.contents i = some p) :
    o.payload = p := Option.some.inj ((contents_of_get? ho).symm.trans hp)

theorem contents_update_self (h : Heap) (i : ObjId) (f : Object → Object) :
    (h.update i f).contents i = (h.get? i).map fun o => (f o).payload := by
  rw [contents, get?_update_self, Option.map_map]
  rfl

theorem contents_update_of_ne {j : ObjId} (hne : j ≠ i) (f : Object → Object) :
    (h.update i f).contents j = h.contents j := by
  rw [contents, get?_update_of_ne hne, contents]

/-- What an object holds after an update was made of it there, or was there before. -/
theorem of_contents_update {f : Object → Object} {j : ObjId} {a : Payload}
    (ha : (h.update i f).contents j = some a) :
    (j = i ∧ ∃ o, h.get? i = some o ∧ (f o).payload = a) ∨ (j ≠ i ∧ h.contents j = some a) := by
  by_cases hji : j = i
  · subst hji
    rw [contents_update_self, Option.map_eq_some_iff] at ha
    exact .inl ⟨rfl, ha⟩
  · exact .inr ⟨hji, by rwa [contents_update_of_ne hji] at ha⟩

theorem contents_update_of_payload (h : Heap) (i : ObjId) {f : Object → Object}
    (hf : ∀ o, (f o).payload = o.payload) : (h.update i f).contents = h.contents := by
  funext j
  by_cases hji : j = i
  · subst hji
    simp only [contents_update_self, hf]
    rfl
  · exact contents_update_of_ne hji f

theorem contents_allocate_of_some {a : Payload} (ha : h.contents i = some a) (o : Object) :
    (h.allocate o).2.contents i = some a := by
  obtain ⟨p, hp, rfl⟩ := Option.map_eq_some_iff.1 ha
  exact contents_of_get? (get?_allocate_of_some hp o)

/-- What an object holds after an allocation is the new object's payload, or was there
    before. -/
theorem of_contents_allocate {j : ObjId} {a : Payload}
    (ha : (h.allocate o).2.contents j = some a) :
    (j = ⟨h.size⟩ ∧ o.payload = a) ∨ h.contents j = some a := by
  by_cases hji : j = (h.allocate o).1
  · subst hji
    rw [contents, get?_allocate_self] at ha
    exact .inl ⟨rfl, Option.some.inj ha⟩
  · rw [contents, get?_allocate_of_ne hji] at ha
    exact .inr ha

/-- Loans do not show in the contents. -/
theorem contents_set {p : Object} (ho : h.get? i = some o) (hp : p.payload = o.payload) :
    (h.set i p).contents = h.contents := by
  funext j
  by_cases hji : j = i
  · subst hji
    simp [contents, get?_set_self (lt_size_of_get? ho), ho, hp]
  · simp [contents, get?_set_of_ne hji]

theorem Unwritten.set {p : Object} (hu : h.Unwritten) (hi : i.index < h.size)
    (hp : p.loan ≠ .exclusive) : (h.set i p).Unwritten := by
  intro j q hq
  by_cases hji : j = i
  · subst hji
    rw [get?_set_self hi] at hq
    cases hq
    exact hp
  · rw [get?_set_of_ne hji] at hq
    exact hu j q hq

theorem Unwritten.allocate (hu : h.Unwritten) (hl : o.loan ≠ .exclusive) :
    (h.allocate o).2.Unwritten := by
  intro j p hj
  by_cases hji : j = (h.allocate o).1
  · subst hji
    rw [get?_allocate_self] at hj
    cases hj
    exact hl
  · rw [get?_allocate_of_ne hji] at hj
    exact hu j p hj

/-- What every cell shows of the slots, all objects do. -/
theorem filled_of_cells (hcells : ∀ cell ∈ h.cells.toList, ∀ o, cell = some o →
    ∀ r ∈ o.payload.slots, (r.bind h.contents).isSome) : h.contents.Filled := by
  intro i a ha
  obtain ⟨o, ho, rfl⟩ := Option.map_eq_some_iff.1 ha
  exact forall_get? (P := fun o => ∀ r ∈ o.payload.slots, (r.bind h.contents).isSome) hcells ho

theorem ordered_of_cells (hcells : ∀ cell ∈ h.cells.toList, ∀ o, cell = some o →
    ∀ entries ∈ o.toDict.toOption.toList, List.Pairwise (· < ·) entries.keys) :
    h.contents.Ordered := by
  intro i entries ha
  obtain ⟨o, ho, hp⟩ := Option.map_eq_some_iff.1 ha
  exact forall_get? (P := fun o => ∀ entries ∈ o.toDict.toOption.toList, entries.Ascending)
    hcells ho entries (by simp [Object.toDict, hp, Except.toOption])

theorem unwritten_of_cells
    (hcells : ∀ cell ∈ h.cells.toList, ∀ o, cell = some o → o.loan ≠ .exclusive) :
    h.Unwritten :=
  fun _ _ ho => forall_get? (P := fun o => o.loan ≠ .exclusive) hcells ho

theorem lt_size_of_contents {a : Payload} (ha : h.contents i = some a) : i.index < h.size := by
  obtain ⟨o, ho, -⟩ := Option.map_eq_some_iff.1 ha
  exact lt_size_of_get? ho

end Heap

end ValueEngine

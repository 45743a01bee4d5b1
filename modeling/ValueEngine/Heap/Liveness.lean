/-
  Value engine — the life of objects.

  An object lives as long as something refers to it: a root, which the host holds,
  or a live object. Objects that refer to each other in a circle live for ever.

  * `Heap.holders`: every reference there is, one entry for each.
  * `Heap.referenceCount`: the number of references to an object.
  * `Heap.collect`: reclaims what nothing refers to, and what thereby loses its last
    reference.
  * `get?_sweep`: a sweep keeps exactly the objects that are referred to.
-/
import ValueEngine.Heap.Basic

namespace ValueEngine

namespace Heap

/-- The references that live objects hold, one entry for each. -/
def references (h : Heap) : List ObjId :=
  h.cells.toList.flatMap fun
    | some o => o.references
    | none => []

/-- Every reference there is: those of the host and those of live objects. -/
def holders (h : Heap) (roots : List ObjId) : List ObjId := roots ++ h.references

/-- The number of references to an object. -/
def referenceCount (h : Heap) (roots : List ObjId) (i : ObjId) : Nat := (h.holders roots).count i

/-- For each identity, whether it is in a list. -/
def marks (h : Heap) (held : List ObjId) : Array Bool :=
  held.foldl (fun m i => m.setIfInBounds i.index true) (Array.replicate h.size false)

/-- The live objects that nothing refers to. -/
def loose (h : Heap) (roots : List ObjId) : List ObjId :=
  let marks := h.marks (h.holders roots)
  h.ids.filter fun i => !(marks[i.index]?.getD false)

/-- Reclaims the objects that nothing refers to. -/
def sweep (h : Heap) (roots : List ObjId) : Heap := (h.loose roots).foldl remove h

/-- Sweeps until nothing is left to reclaim, at most so many times. -/
def collectWithin (roots : List ObjId) : Nat → Heap → Heap
  | 0, h => h
  | rounds + 1, h =>
    if (h.loose roots).isEmpty then h else collectWithin roots rounds (h.sweep roots)

/-- Reclaims every object that has lost its last reference. Each sweep empties a
    cell, so the number of cells bounds the number of sweeps. -/
def collect (h : Heap) (roots : List ObjId) : Heap := collectWithin roots h.size h

/-! ## What a sweep keeps -/

theorem size_marks (h : Heap) (held : List ObjId) : (h.marks held).size = h.size := by
  suffices hs : ∀ m : Array Bool,
      (held.foldl (fun m i => m.setIfInBounds i.index true) m).size = m.size by
    simp [marks, hs]
  induction held with
  | nil => simp
  | cons i rest ih => intro m; simp [ih]

theorem marks_eq_true_iff {h : Heap} {held : List ObjId} {i : ObjId} (hi : i.index < h.size) :
    (h.marks held)[i.index]?.getD false = true ↔ i ∈ held := by
  suffices hs : ∀ m : Array Bool, m.size = h.size →
      ((held.foldl (fun m i => m.setIfInBounds i.index true) m)[i.index]?.getD false = true ↔
        m[i.index]?.getD false = true ∨ i ∈ held) by
    rw [marks, hs _ (by simp)]
    simp [hi]
  induction held with
  | nil => simp
  | cons j rest ih =>
    intro m hm
    rw [List.foldl_cons, ih _ (by simpa using hm)]
    by_cases hij : j = i
    · subst hij
      simp [hm, hi]
    · have hne : j.index ≠ i.index := fun e => hij (by cases i; cases j; simp_all)
      have hij' : i ≠ j := Ne.symm hij
      simp [hne, hij']

theorem mem_loose {h : Heap} {roots : List ObjId} {i : ObjId} :
    i ∈ h.loose roots ↔ (h.get? i).isSome ∧ i ∉ h.holders roots := by
  simp only [loose, List.mem_filter, mem_ids]
  constructor
  · rintro ⟨hl, hm⟩
    obtain ⟨o, ho⟩ := Option.isSome_iff_exists.1 hl
    refine ⟨hl, fun hmem => ?_⟩
    rw [(marks_eq_true_iff (lt_size_of_get? ho)).2 hmem] at hm
    exact absurd hm (by decide)
  · rintro ⟨hl, hn⟩
    obtain ⟨o, ho⟩ := Option.isSome_iff_exists.1 hl
    refine ⟨hl, ?_⟩
    rw [Bool.not_eq_true', Bool.eq_false_iff]
    exact fun hm => hn ((marks_eq_true_iff (lt_size_of_get? ho)).1 hm)

theorem get?_remove_self (h : Heap) (i : ObjId) : (h.remove i).get? i = none := by
  simp only [get?, remove, Array.getElem?_setIfInBounds_self]
  split <;> rfl

theorem get?_remove_of_ne {h : Heap} {i j : ObjId} (hne : j ≠ i) :
    (h.remove i).get? j = h.get? j := by
  have : i.index ≠ j.index := fun e => hne (by cases i; cases j; simp_all)
  simp [get?, remove, this]

theorem get?_foldl_remove (is : List ObjId) (h : Heap) (i : ObjId) :
    (is.foldl remove h).get? i = if i ∈ is then none else h.get? i := by
  induction is generalizing h with
  | nil => simp
  | cons j rest ih =>
    rw [List.foldl_cons, ih]
    by_cases hr : i ∈ rest
    · simp [hr]
    · by_cases hj : i = j
      · subst hj; simp [hr, get?_remove_self]
      · simp [hr, hj, get?_remove_of_ne hj]

theorem get?_sweep (h : Heap) (roots : List ObjId) (i : ObjId) :
    (h.sweep roots).get? i = if i ∈ h.holders roots then h.get? i else none := by
  rw [sweep, get?_foldl_remove]
  by_cases hm : i ∈ h.holders roots
  · simp [mem_loose, hm]
  · cases ho : h.get? i <;> simp [mem_loose, hm, ho]

end Heap

end ValueEngine

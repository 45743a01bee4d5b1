/-
  Value engine — slices of strings, lists and tuples.

  To look up a slice makes a new sequence of the same kind. It holds what stands at the
  places of the progression that the slice means, in this order, whichever kind the
  sequence is of.

  * `Payload.units?`: what a sequence holds, in order, be it bytes or references.
  * `Payload.restricted`: the sequence of what stands at some places of another one.
  * `item_of_found`, `item_of_fresh`, `item_of_failed`: what looking up comes to.
  * `itemOf_slice`, `item_slice_eq`: what a slice comes to.
  * `slices_select_progressions`: which slices fail, what the others select, and how.
-/
import ValueEngine.Proofs.Effects.Newborn
import ValueEngine.Proofs.Slicing.Progression

namespace ValueEngine

variable {σ α : Type} {hooks : Hooks σ} {w : World σ} {i j : ObjId} {o key : Object}
  {bounds : SliceBounds} {p : Payload} {units : List (UInt8 ⊕ Ref)} {places : List Nat}

/-! ## Places of a list -/

theorem map_some_range (xs : List α) : (List.range xs.length).map (xs[·]?) = xs.map some := by
  refine List.ext_getElem (by simp) fun k hk _ => ?_
  have hlt : k < xs.length := by simpa using hk
  simp [hlt]

/-- What stands at all places of a list is the list. -/
theorem filterMap_range (xs : List α) : (List.range xs.length).filterMap (xs[·]?) = xs := by
  have hid : (List.range xs.length).filterMap (xs[·]?) =
      ((List.range xs.length).map (xs[·]?)).filterMap id := by
    rw [List.filterMap_map]
    rfl
  rw [hid, map_some_range, List.filterMap_map]
  exact List.filterMap_some

/-- What is taken from places that there are is what stands there. -/
theorem forall₂_filterMap {xs : List α} (h : ∀ place ∈ places, place < xs.length) :
    List.Forall₂ (fun place x => xs[place]? = some x) places (places.filterMap (xs[·]?)) := by
  induction places with
  | nil => exact .nil
  | cons place places ih =>
    have hlt : place < xs.length := h place (.head _)
    have hplace : xs[place]? = some xs[place] := List.getElem?_eq_getElem hlt
    rw [List.filterMap_cons, hplace]
    exact .cons hplace (ih fun later hl => h later (.tail _ hl))

theorem not_mem_filterMap {xs : List α} {x : α} (h : x ∉ xs) (places : List Nat) :
    x ∉ places.filterMap (xs[·]?) := by
  intro hmem
  obtain ⟨place, -, hplace⟩ := List.mem_filterMap.1 hmem
  exact h (List.mem_of_getElem? hplace)

/-! ## Sequences of either sort -/

namespace Payload

/-- What a sequence holds, in order: the bytes of a string, or the references in a list or
    a tuple. -/
def units? : Payload → Option (List (UInt8 ⊕ Ref))
  | string text => some (text.map .inl)
  | list elements | tuple elements => some (elements.map .inr)
  | _ => none

/-- The sequence of the same kind that holds what stands at some places of a sequence. -/
def restricted (places : List Nat) : Payload → Payload
  | string text => string (places.filterMap (text[·]?))
  | list elements => list (places.filterMap (elements[·]?))
  | tuple elements => tuple (places.filterMap (elements[·]?))
  | other => other

theorem null_mem_units (hp : p.units? = some units) : .inr none ∈ units ↔ none ∈ p.slots := by
  cases p with
  | string xs | list xs | tuple xs => cases hp; simp [slots]
  | _ => cases hp

/-- A sequence without null slots is without null parts. -/
theorem missingPart?_of_units (hp : p.units? = some units) (h : .inr none ∉ units) :
    p.missingPart? = none := by
  rw [null_mem_units hp] at h
  cases p with
  | string => rfl
  | list elements => exact (missingPart?_of_sequence h).1
  | tuple elements => exact (missingPart?_of_sequence h).2
  | _ => cases hp

theorem kind_restricted (places : List Nat) (p : Payload) :
    (p.restricted places).kind = p.kind := by
  cases p <;> rfl

theorem units?_of_restricted (hp : p.units? = some units) (places : List Nat) :
    (p.restricted places).units? = some (places.filterMap (units[·]?)) := by
  cases p with
  | string xs | list xs | tuple xs =>
    cases hp
    simp only [restricted, units?, List.map_filterMap, List.getElem?_map]
  | _ => cases hp

theorem units?_restricted (hp : p.units? = some units)
    (h : ∀ place ∈ places, place < units.length) :
    ∃ selected, (p.restricted places).units? = some selected ∧
      List.Forall₂ (fun place unit => units[place]? = some unit) places selected :=
  ⟨_, units?_of_restricted hp places, forall₂_filterMap h⟩

/-- What is taken from a sequence without null slots has none. -/
theorem missingPart?_restricted (hp : p.units? = some units) (h : none ∉ p.slots)
    (places : List Nat) : (p.restricted places).missingPart? = none :=
  missingPart?_of_units (units?_of_restricted hp places)
    (not_mem_filterMap (mt (null_mem_units hp).1 h) places)

end Payload

/-! ## Looking an item up -/

section Item

variable (ho : w.heap.get? i = some o) (hkey : w.heap.get? j = some key) (hne : i ≠ j)
  (hu : o.loan ≠ .exclusive) (hku : key.loan ≠ .exclusive)
include ho hkey hne hu hku

/-- A collection and a key, which are two objects, are lent while the item is looked up. -/
theorem item_arrives {done : Outcome → World σ → Prop} {left : World σ → Prop}
    (h : ∀ l m, Access.read.acquire o.loan = .ok l → Access.read.acquire key.loan = .ok m →
      (w.lent i o l).heap.get? j = some key →
      (itemOf hooks o.payload key.payload).Arrives ((w.lent i o l).lent j key m)
        (fun outcome v => done outcome ((v.endLoan .read j).endLoan .read i))
        fun v => left ((v.endLoan .read j).endLoan .read i)) :
    (Ref.item hooks (some i) (some j)).Arrives w done left := by
  refine .withRead ho hu fun l hl => ?_
  have hkey' := World.get?_lent_of_ne (o := o) hkey hne l
  refine .withRead hkey' hku fun m hm => ?_
  exact h l m hl hm hkey'

/-- An object that the collection has is handed out, and nothing changes. -/
theorem item_of_found {v : ObjId}
    (h : itemOf hooks o.payload key.payload = Action.succeed (some v)) :
    Ref.item hooks (some i) (some j) w = .ok (.success v) w := by
  refine (item_arrives ho hkey hne hu hku fun l m hl hm hkey' => ?_).eq_ok
  rw [h]
  refine .of_ok rfl ⟨rfl, ?_⟩
  rw [World.endLoan_lent hkey' hm, World.endLoan_lent ho hl]

/-- An item that is made is one more object. -/
theorem item_of_fresh {q : Payload} (h : itemOf hooks o.payload key.payload = freshValue q)
    (hq : q.missingPart? = none) :
    Ref.item hooks (some i) (some j) w = .ok (.success w.nextId) (w.added q.newborn) := by
  refine (item_arrives ho hkey hne hu hku fun l m hl hm hkey' => ?_).eq_ok
  rw [h]
  refine .of_ok (freshValue_eq hq _) ⟨by simp, ?_⟩
  rw [World.endLoan_added hkey' hm, World.endLoan_added ho hl]

/-- Where there is no item that is a failure. -/
theorem item_of_failed {cause : Failure}
    (h : itemOf hooks o.payload key.payload = fail hooks cause) :
    (Ref.item hooks (some i) (some j)).Arrives w (fun outcome _ => outcome = .failure cause)
      fun _ => ¬hooks.Returns := by
  refine item_arrives ho hkey hne hu hku fun l m _ _ _ => ?_
  rw [h]
  exact .fail_or_throws hooks _ _

end Item

/-! ## Looking a slice up -/

theorem itemOf_slice (hp : p.units? = some units) (hs : bounds.step ≠ some 0) :
    itemOf hooks p (.slice bounds) =
      freshValue (p.restricted (bounds.progression units.length).places) := by
  cases p with
  | string xs | list xs | tuple xs =>
    cases hp
    simp only [itemOf, sequenceItem, textItem, SliceBounds.select?, SliceBounds.positions?_eq hs,
      Option.map_some, List.length_map]
    rfl
  | _ => cases hp

theorem itemOf_slice_zero (hp : p.units? = some units) (hs : bounds.step = some 0) :
    itemOf hooks p (.slice bounds) = fail hooks .stepIsZero := by
  have hnone : ∀ n, bounds.positions? n = none := fun n => SliceBounds.positions?_eq_none_iff.2 hs
  cases p with
  | string xs | list xs | tuple xs =>
    simp only [itemOf, sequenceItem, textItem, SliceBounds.select?, hnone, Option.map_none]
  | _ => cases hp

section Slice

variable (ho : w.heap.get? i = some o) (hkey : w.heap.get? j = some key)
  (hbounds : key.payload = .slice bounds) (hu : o.loan ≠ .exclusive) (hku : key.loan ≠ .exclusive)
  (hunits : o.payload.units? = some units)
include ho hkey hbounds hunits

/-- A sequence and a slice are two objects. -/
theorem ne_of_slice : i ≠ j := by
  rintro rfl
  cases ho.symm.trans hkey
  rw [hbounds] at hunits
  cases hunits

include hu hku

/-- **A slice is a new sequence** of what stands at its places. -/
theorem item_slice_eq (hnull : none ∉ o.payload.slots) (hs : bounds.step ≠ some 0) :
    Ref.item hooks (some i) (some j) w = .ok (.success w.nextId)
      (w.added (o.payload.restricted (bounds.progression units.length).places).newborn) := by
  have hne := ne_of_slice ho hkey hbounds hunits
  refine item_of_fresh ho hkey hne hu hku ?_ (Payload.missingPart?_restricted hunits hnull _)
  rw [hbounds, itemOf_slice hunits hs]

/-- A slice without a step forward or back is a failure. -/
theorem item_slice_zero (hs : bounds.step = some 0) :
    (Ref.item hooks (some i) (some j)).Arrives w (fun outcome _ => outcome = .failure .stepIsZero)
      fun _ => ¬hooks.Returns := by
  have hne := ne_of_slice ho hkey hbounds hunits
  refine item_of_failed ho hkey hne hu hku ?_
  rw [hbounds, itemOf_slice_zero hunits hs]

variable (hooks) in
/-- **Slices select progressions.** Let a string, a list or a tuple of less than `2 ^ 31`
    units, none of them null, and a slice be such that nobody writes them. If the step of
    the slice is zero, to look it up is a failure for a bad value. Otherwise it makes a new
    sequence of the same kind, which holds what stands at the places of the progression
    that the slice means, in this order. These are just the places that are so many steps
    from the start and strictly before the stop; their number is the way to the stop over
    the step, rounded up; they lie in the sequence, and go one way only. The walk passes
    them and ends one step later, however many steps it would be allowed to take, and no
    number on the way leaves the range of 64 bits. -/
theorem slices_select_progressions (hn : units.length < 2 ^ 31) (hnull : none ∉ o.payload.slots) :
    (bounds.step = some 0 →
      Failure.stepIsZero.kind? = some .badValue ∧
      (Ref.item hooks (some i) (some j)).Arrives w
        (fun outcome _ => outcome = .failure .stepIsZero) fun _ => ¬hooks.Returns) ∧
    (bounds.step ≠ some 0 → ∀ chosen, chosen = bounds.progression units.length →
      (∃ (q : Payload) (selected : List (UInt8 ⊕ Ref)), q.kind = o.kind ∧
        q.units? = some selected ∧
        List.Forall₂ (fun place unit => units[place]? = some unit) chosen.places selected ∧
        Ref.item hooks (some i) (some j) w = .ok (.success w.nextId) (w.added q.newborn)) ∧
      (∀ place : Nat, place ∈ chosen.places ↔
        ∃ k : Nat, (place : Int) = chosen.start + k * chosen.step ∧ chosen.Before place) ∧
      chosen.places.length = ⌈((chosen.stop - chosen.start : Int) : ℚ) / (chosen.step : ℚ)⌉₊ ∧
      (∀ place ∈ chosen.places, place < units.length) ∧
      (chosen.places.Pairwise fun place later =>
        if 0 < chosen.step then place < later else later < place) ∧
      (∀ place, bounds.Passes units.length place ↔
        ∃ k, k ≤ chosen.places.length ∧ place = chosen.start + k * chosen.step) ∧
      (∀ allowed, units.length ≤ allowed →
        SliceBounds.walk chosen.step chosen.stop allowed chosen.start = chosen.places) ∧
      ∀ v, bounds.Meets units.length v → -2 ^ 63 ≤ v ∧ v < 2 ^ 63) := by
  constructor
  · exact fun hs => ⟨rfl, item_slice_zero ho hkey hbounds hu hku hunits hs⟩
  · rintro hs chosen rfl
    have hstride := SliceBounds.stride_ne_zero hs
    have hlt : ∀ place ∈ (bounds.progression units.length).places, place < units.length :=
      fun _ => SliceBounds.lt_of_mem_places hstride
    obtain ⟨selected, hselected, hstands⟩ := Payload.units?_restricted hunits hlt
    refine ⟨⟨_, selected, Payload.kind_restricted _ _, hselected, hstands,
      item_slice_eq ho hkey hbounds hu hku hunits hnull hs⟩,
      fun _ => SliceBounds.mem_places_iff hstride, Progression.length_places, hlt, ?_, ?_, ?_,
      fun _ => SliceBounds.word_of_meets hn⟩
    · rw [SliceBounds.progression_step]
      exact SliceBounds.pairwise_places hstride
    · rw [Progression.length_places]
      exact fun _ => SliceBounds.passes_iff hstride
    · intro allowed hallowed
      rw [SliceBounds.progression_step, SliceBounds.progression_start hstride,
        SliceBounds.progression_stop hstride]
      exact SliceBounds.walk_eq_places hstride hallowed

end Slice

/-! ## A string read backwards -/

/-- The slice from the last unit of a sequence to the first, leaving out every other one. -/
def everyOtherBackwards : SliceBounds where
  start := some Int32.maxValue
  stop := some Int32.minValue
  step := some (-2)

/-- An engine with a string and a slice. -/
def withSlice : World Unit :=
  ((World.initial ()).added (Payload.string (.ofString "hello")).newborn).added
    (Payload.slice everyOtherBackwards).newborn

/-- Every other byte of a string, from the last one on. -/
theorem slices_select_progressions_backwards :
    let word : ObjId := ⟨Heap.initial.size⟩
    let slice : ObjId := ⟨Heap.initial.size + 1⟩
    let chosen := everyOtherBackwards.progression 5
    (∃ (q : Payload) (selected : List (UInt8 ⊕ Ref)), q.kind = .string ∧ q.units? = some selected ∧
      List.Forall₂ (fun place unit => ((Bytes.ofString "hello").map Sum.inl)[place]? = some unit)
        chosen.places selected ∧
      Ref.item {} (some word) (some slice) withSlice =
        .ok (.success withSlice.nextId) (withSlice.added q.newborn)) ∧
    ((Ref.item {} (some word) (some slice)).after withSlice).heap.contents withSlice.nextId =
      some (.string (.ofString "olh")) := by
  have hword : withSlice.heap.get? ⟨Heap.initial.size⟩ =
      some (Payload.string (.ofString "hello")).newborn := by decide
  have hslice : withSlice.heap.get? ⟨Heap.initial.size + 1⟩ =
      some (Payload.slice everyOtherBackwards).newborn := by decide
  have hselects := (slices_select_progressions {} hword hslice rfl nofun nofun rfl
    (by decide) (by decide)).2 (by decide) _ rfl
  exact ⟨hselects.1, by decide⟩

end ValueEngine

/-
  Value engine — sound heaps.

  In a sound heap nothing refers to an object that is gone, the canonical objects are
  there, and what an object was made from is older than the object: its type, and the
  target of an iterator. Whether slots may be null is left open, since a host that makes
  and changes objects itself may leave some.

  * `Heap.Admits`: references that may stand in a slot.
  * `Payload.Fits`, `Object.Fits`: what may stand in a heap under an identity.
  * `Heap.Sound`: heaps in which everything fits.
  * `Sound.update`, `Sound.allocate`, `Sound.collect`: the steps that keep a heap sound.
  * `Sound.filled`, `Sound.ordered`, `Sound.founded`: what a sound heap holds.
-/
import ValueEngine.Action.Creation
import ValueEngine.Heap.Liveness
import ValueEngine.Proofs.Procedure.Frame

namespace ValueEngine

/-- There is an object with this identity. -/
def Heap.Live (h : Heap) (i : ObjId) : Prop := (h.get? i).isSome

instance (h : Heap) (i : ObjId) : Decidable (h.Live i) :=
  inferInstanceAs (Decidable ((h.get? i).isSome = true))

/-- A reference to an object, or the null reference where that is allowed. -/
def Heap.Admits (h : Heap) (nulls : Prop) : Ref → Prop
  | some i => h.Live i
  | none => nulls

/-- A payload that may stand under an identity: its slots are admitted, the target of an
    iterator is older, and the keys of a dictionary ascend. -/
structure Payload.Fits (nulls : Prop) (h : Heap) (i : ObjId) (p : Payload) : Prop where
  slots : ∀ r ∈ p.slots, h.Admits nulls r
  target : ∀ cursor t, p = .iterator cursor → cursor.target = some t → t.index < i.index
  ordered : ∀ entries, p = .dict entries → entries.Ascending

/-- An object that may stand under an identity: its payload may, its attributes are
    objects under ascending names, and its type is an older object. -/
structure Object.Fits (nulls : Prop) (h : Heap) (i : ObjId) (o : Object) : Prop where
  payload : o.payload.Fits nulls h i
  attributes : ∀ j ∈ o.attributes.values, h.Live j
  named : o.attributes.Ascending
  type : ∀ t, o.type = some t → h.Live t ∧ t.index < i.index

/-- A heap in which everything fits and the canonical objects are live. -/
structure Heap.Sound (nulls : Prop) (h : Heap) : Prop where
  fits : ∀ i o, h.get? i = some o → o.Fits nulls h i
  canonical : ∀ i ∈ canonicalIds, h.Live i

variable {nulls : Prop} {h h' : Heap} {i : ObjId} {o : Object} {p : Payload}

theorem Heap.live_of_get? (ho : h.get? i = some o) : h.Live i := by simp [Live, ho]

theorem Heap.get?_of_not_live (hi : ¬h.Live i) : h.get? i = none :=
  Option.not_isSome_iff_eq_none.1 hi

theorem Heap.Live.lt_size (hi : h.Live i) : i.index < h.size := by
  obtain ⟨o, ho⟩ := Option.isSome_iff_exists.1 hi
  exact lt_size_of_get? ho

/-! ## More objects -/

section Mono

variable (hsub : ∀ i, h.Live i → h'.Live i)
include hsub

theorem Heap.Admits.mono {r : Ref} (hr : h.Admits nulls r) : h'.Admits nulls r := by
  cases r with
  | none => exact hr
  | some i => exact hsub i hr

theorem Payload.Fits.mono (hp : p.Fits nulls h i) : p.Fits nulls h' i where
  slots r hr := (hp.slots r hr).mono hsub
  target := hp.target
  ordered := hp.ordered

theorem Object.Fits.mono (ho : o.Fits nulls h i) : o.Fits nulls h' i where
  payload := ho.payload.mono hsub
  attributes j hj := hsub j (ho.attributes j hj)
  named := ho.named
  type t ht := ⟨hsub t (ho.type t ht).1, (ho.type t ht).2⟩

end Mono

/-! ## Payloads and objects that fit -/

/-- What holds no reference fits anywhere. -/
theorem Payload.Fits.of_slots (hs : p.slots = []) : p.Fits nulls h i where
  slots := by simp [hs]
  target cursor t hp _ := by subst hp; cases hs
  ordered entries hp := by
    subst hp
    have hnil : entries = [] := List.map_eq_nil_iff.1 hs
    rw [hnil]
    exact Table.ascending_nil

theorem Payload.Fits.list {elements : List Ref} (he : ∀ r ∈ elements, h.Admits nulls r) :
    (Payload.list elements).Fits nulls h i := ⟨he, nofun, nofun⟩

theorem Payload.Fits.tuple {elements : List Ref} (he : ∀ r ∈ elements, h.Admits nulls r) :
    (Payload.tuple elements).Fits nulls h i := ⟨he, nofun, nofun⟩

theorem Payload.Fits.dict {entries : Table Ref} (he : ∀ r ∈ entries.values, h.Admits nulls r)
    (ho : entries.Ascending) : (Payload.dict entries).Fits nulls h i :=
  ⟨he, nofun, fun _ hp => by cases hp; exact ho⟩

/-- A new object of the canonical type of its kind. -/
theorem Object.Fits.of_payload {loan : Loan} (hs : h.Sound nulls)
    (hp : p.Fits nulls h ⟨h.size⟩) :
    Object.Fits nulls h ⟨h.size⟩ { payload := p, type := some p.kind.typeId, loan } where
  payload := hp
  attributes := nofun
  named := Table.ascending_nil
  type t ht := by
    cases ht
    have hlive := hs.canonical _ (typeId_mem_canonicalIds p.kind)
    exact ⟨hlive, hlive.lt_size⟩

theorem Object.Fits.setPayload (ho : o.Fits nulls h i) (hp : p.Fits nulls h i) :
    Object.Fits nulls h i { o with payload := p } := { ho with payload := hp }

theorem Object.Fits.setLoan (ho : o.Fits nulls h i) (loan : Loan) :
    Object.Fits nulls h i { o with loan := loan } := ⟨ho.1, ho.2, ho.3, ho.4⟩

/-! ## Steps -/

namespace Heap

theorem live_update {f : Object → Object} {j : ObjId} : (h.update i f).Live j ↔ h.Live j := by
  by_cases hji : j = i
  · subst hji
    simp [Live, get?_update_self]
  · simp [Live, get?_update_of_ne hji]

theorem live_allocate_of_live {j : ObjId} (hj : h.Live j) : (h.allocate o).2.Live j := by
  obtain ⟨p, hp⟩ := Option.isSome_iff_exists.1 hj
  exact live_of_get? (get?_allocate_of_some hp o)

namespace Sound

/-- A change of an object into one that fits. -/
theorem update {f : Object → Object} (hs : h.Sound nulls)
    (hf : ∀ o, h.get? i = some o → (f o).Fits nulls h i) : (h.update i f).Sound nulls where
  fits j o ho := by
    refine Object.Fits.mono (h := h) (fun k hk => live_update.2 hk) ?_
    by_cases hji : j = i
    · subst hji
      rw [get?_update_self] at ho
      obtain ⟨p, hp, rfl⟩ := Option.map_eq_some_iff.1 ho
      exact hf p hp
    · rw [get?_update_of_ne hji] at ho
      exact hs.fits j o ho
  canonical j hj := live_update.2 (hs.canonical j hj)

/-- Who has an object does not matter. -/
theorem setLoan (hs : h.Sound nulls) (i : ObjId) (f : Loan → Loan) :
    (h.update i fun o => { o with loan := f o.loan }).Sound nulls :=
  hs.update fun o ho => (hs.fits i o ho).setLoan _

theorem allocate (hs : h.Sound nulls) (ho : o.Fits nulls h ⟨h.size⟩) :
    (h.allocate o).2.Sound nulls where
  fits j p hp := by
    refine Object.Fits.mono (h := h) (fun k hk => live_allocate_of_live hk) ?_
    by_cases hj : j = (h.allocate o).1
    · subst hj
      rw [get?_allocate_self] at hp
      cases hp
      exact ho
    · rw [get?_allocate_of_ne hj] at hp
      exact hs.fits j p hp
  canonical j hj := live_allocate_of_live (hs.canonical j hj)

/-- Fewer null slots are as good. -/
theorem mono_nulls {nulls' : Prop} (hs : h.Sound nulls) (hn : nulls → nulls') :
    h.Sound nulls' where
  fits i o ho := by
    have hfits := hs.fits i o ho
    refine { hfits with payload := { hfits.payload with slots := fun r hr => ?_ } }
    have hadmits := hfits.payload.slots r hr
    cases r with
    | none => exact hn hadmits
    | some j => exact hadmits
  canonical := hs.canonical

theorem initial : Heap.initial.Sound nulls where
  fits i o ho := by
    have hplain : ∀ cell ∈ Heap.initial.cells.toList, ∀ o, cell = some o →
        o.payload.slots = [] ∧ o.attributes = [] := by decide
    obtain ⟨hslots, hattributes⟩ := forall_get? hplain ho
    have htype : ∀ n < 16, ∀ o, Heap.initial.get? ⟨n⟩ = some o → ∀ t ∈ o.type,
        (Heap.initial.get? t).isSome ∧ t.index < n := by decide
    exact {
      payload := .of_slots hslots
      attributes := by simp [hattributes, Table.values]
      named := hattributes ▸ Table.ascending_nil
      type := fun t ht => htype i.index (lt_size_of_get? ho) o ho t ht }
  canonical := by decide

end Sound

/-! ## Reclaiming -/

theorem mem_references {j : ObjId} :
    j ∈ h.references ↔ ∃ i o, h.get? i = some o ∧ j ∈ o.references := by
  simp only [references, List.mem_flatMap]
  constructor
  · rintro ⟨cell, hcell, hj⟩
    cases cell with
    | none => cases hj
    | some o =>
      obtain ⟨n, hn, hget⟩ := Array.mem_iff_getElem.1 (Array.mem_toList_iff.1 hcell)
      exact ⟨⟨n⟩, o, by simp [get?, hn, hget], hj⟩
  · rintro ⟨i, o, ho, hj⟩
    refine ⟨some o, ?_, hj⟩
    rw [get?, Option.join_eq_some_iff] at ho
    obtain ⟨hlt, hcell⟩ := Array.getElem?_eq_some_iff.1 ho
    exact hcell ▸ Array.getElem_mem_toList hlt

end Heap

theorem Object.mem_references {j : ObjId} : j ∈ o.references ↔
    some j ∈ o.payload.slots ∨ j ∈ o.attributes.values ∨ o.type = some j := by
  simp [references]

namespace Heap

variable {roots : List ObjId}

/-- What is referred to is there. -/
theorem Sound.live_of_mem_references (hs : h.Sound nulls) (ho : h.get? i = some o) {j : ObjId}
    (hj : j ∈ o.references) : h.Live j := by
  have hfits := hs.fits i o ho
  obtain hj | hj | hj := Object.mem_references.1 hj
  · exact hfits.payload.slots _ hj
  · exact hfits.attributes j hj
  · exact (hfits.type j hj).1

/-- A sweep keeps what a live object refers to. -/
theorem Sound.sweep (hs : h.Sound nulls) (hroots : ∀ i ∈ canonicalIds, i ∈ roots) :
    (h.sweep roots).Sound nulls := by
  have hkept : ∀ j, h.Live j → j ∈ h.holders roots → (h.sweep roots).Live j := by
    intro j hj hmem
    simpa [Live, get?_sweep, hmem] using hj
  refine ⟨fun i o ho => ?_, fun i hi => hkept i (hs.canonical i hi)
    (List.mem_append_left _ (hroots i hi))⟩
  have ho' : h.get? i = some o := by
    rw [get?_sweep] at ho
    split at ho
    · exact ho
    · cases ho
  have href : ∀ j ∈ o.references, (h.sweep roots).Live j := fun j hj =>
    hkept j (hs.live_of_mem_references ho' hj)
      (List.mem_append_right _ (mem_references.2 ⟨i, o, ho', hj⟩))
  have hfits := hs.fits i o ho'
  refine ⟨⟨fun r hr => ?_, hfits.payload.target, hfits.payload.ordered⟩,
    fun j hj => href j (Object.mem_references.2 (.inr (.inl hj))), hfits.named,
    fun t ht => ⟨href t (Object.mem_references.2 (.inr (.inr ht))), (hfits.type t ht).2⟩⟩
  cases r with
  | none => exact hfits.payload.slots none hr
  | some j => exact href j (Object.mem_references.2 (.inl hr))

theorem Sound.collect (hs : h.Sound nulls) (hroots : ∀ i ∈ canonicalIds, i ∈ roots) :
    (h.collect roots).Sound nulls := by
  have hwithin : ∀ rounds (h : Heap), h.Sound nulls →
      (h.collectWithin roots rounds).Sound nulls := by
    intro rounds
    induction rounds with
    | zero => exact fun _ hs => hs
    | succ rounds ih =>
      intro h hs
      simp only [collectWithin]
      split
      · exact hs
      · exact ih _ (hs.sweep hroots)
  exact hwithin _ h hs

/-! ## What a sound heap holds -/

theorem Sound.filled (hs : h.Sound False) : h.contents.Filled := by
  intro i a ha r hr
  obtain ⟨o, ho, rfl⟩ := Option.map_eq_some_iff.1 ha
  have hadmits := (hs.fits i o ho).payload.slots r hr
  cases r with
  | none => exact hadmits.elim
  | some j =>
    have hlive : (h.get? j).isSome := hadmits
    simpa [contents] using hlive

theorem Sound.ordered (hs : h.Sound nulls) : h.contents.Ordered := by
  intro i entries hi
  obtain ⟨o, ho, hp⟩ := Option.map_eq_some_iff.1 hi
  exact (hs.fits i o ho).payload.ordered entries hp

theorem Sound.founded (hs : h.Sound nulls) : h.Founded := by
  intro i cursor hi ht
  obtain ⟨o, ho, hp⟩ := Option.map_eq_some_iff.1 hi
  exact Nat.lt_irrefl _ ((hs.fits i o ho).payload.target cursor i hp ht)

end Heap

end ValueEngine

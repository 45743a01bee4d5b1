/-
  Value engine — new objects.

  An operation that makes an object adds it to those that there were, under an identity
  that was never given out, and leaves these as they were, whatever it was lent meanwhile.

  * `Payload.newborn`: an object as it is made, of the canonical type of its kind.
  * `World.added`: the world with one more object (`World.endLoan_added`).
  * `freshValue_eq`: to make an object without null parts.
  * `Action.Arrives.withRead`: an object that nobody writes, lent for reading.
  * `Action.Arrives.fail_or_throws`: what comes of a failure.
-/
import ValueEngine.Proofs.Effects.Atomic

namespace ValueEngine

variable {σ α : Type} {w : World σ} {i : ObjId} {o : Object} {access : Access} {l : Loan}

/-- An object that was just made: of the canonical type of its kind, without attributes,
    lent to nobody. -/
def Payload.newborn (p : Payload) : Object where
  payload := p
  type := some p.kind.typeId

/-- The world with one more object. -/
def World.added (p : Object) (w : World σ) : World σ := { w with heap := (w.heap.allocate p).2 }

/-- The identity that the next object gets. -/
def World.nextId (w : World σ) : ObjId := ⟨w.heap.size⟩

theorem World.get?_nextId (w : World σ) : w.heap.get? w.nextId = none :=
  w.heap.get?_allocate_fst { payload := .noneObject, type := none }

theorem World.get?_added_nextId (p : Object) (w : World σ) :
    (w.added p).heap.get? w.nextId = some p := Heap.get?_allocate_self ..

@[simp] theorem World.nextId_lent (w : World σ) (i : ObjId) (o : Object) (l : Loan) :
    (w.lent i o l).nextId = w.nextId := congrArg ObjId.mk (Heap.size_set ..)

@[simp] theorem World.nextId_traced (w : World σ) (level : Int) (message : Bytes) :
    (w.traced level message).nextId = w.nextId := by rw [nextId, heap_traced, nextId]

/-- To change an object that is there and to add another one are independent. -/
theorem Heap.update_allocate {h : Heap} (ho : h.get? i = some o) (p : Object)
    (f : Object → Object) : (h.allocate p).2.update i f = ((h.update i f).allocate p).2 := by
  have hsize : (h.update i f).size = h.size := size_update ..
  have hnew : ((h.update i f).allocate p).1 = (h.allocate p).1 := congrArg ObjId.mk hsize
  have hi : i ≠ (h.allocate p).1 := by
    rintro rfl
    rw [get?_allocate_fst] at ho
    cases ho
  refine ext_get? ?_ fun j => ?_
  · rw [size_update]
    simp only [Heap.size, allocate, Array.size_push] at hsize ⊢
    rw [hsize]
  · by_cases hj : j = (h.allocate p).1
    · subst hj
      rw [get?_update_of_ne hi.symm, get?_allocate_self, ← hnew, get?_allocate_self]
    · rw [get?_allocate_of_ne (hnew ▸ hj)]
      by_cases hji : j = i
      · subst hji
        rw [get?_update_self, get?_update_self, get?_allocate_of_ne hj]
      · rw [get?_update_of_ne hji, get?_update_of_ne hji, get?_allocate_of_ne hj]

/-- A loan that is given and ended leaves no trace beside a new object. -/
theorem World.endLoan_added (ho : w.heap.get? i = some o) (hl : access.acquire o.loan = .ok l)
    (p : Object) : ((w.lent i o l).added p).endLoan access i = w.added p := by
  have hback : ((w.lent i o l).endLoan access i).heap = w.heap := by rw [endLoan_lent ho hl]
  have hheap : ((w.lent i o l).heap.allocate p).2.update i
      (fun o => { o with loan := access.release o.loan }) = (w.heap.allocate p).2 := by
    rw [Heap.update_allocate (get?_lent_self ho l)]
    exact congrArg (fun heap : Heap => (heap.allocate p).2) hback
  rw [added, endLoan, hheap]
  rfl

/-- To trace and to lend are independent. -/
theorem World.lent_traced (w : World σ) (level : Int) (message : Bytes) :
    (w.lent i o l).traced level message = (w.traced level message).lent i o l := by
  by_cases h : level ≤ w.settings.verbosity
  · rw [traced_of_le h, traced_of_le (w := w.lent i o l) h]
    rfl
  · rw [traced_of_lt (Int.not_le.1 h), traced_of_lt (w := w.lent i o l) (Int.not_le.1 h)]

/-- To make an object without null parts adds it under the next identity. -/
theorem freshValue_eq {p : Payload} (hp : p.missingPart? = none) (w : World σ) :
    freshValue p w = .ok (.success w.nextId) (w.added p.newborn) := by
  have hfresh : fresh p w = .ok w.nextId (w.added p.newborn) := by
    simp only [fresh, hp]
    rfl
  exact Action.bind_of_ok hfresh _

/-- A sequence without null slots is without null parts. -/
theorem Payload.missingPart?_of_sequence {elements : List Ref} (h : none ∉ elements) :
    (Payload.list elements).missingPart? = none ∧ (Payload.tuple elements).missingPart? = none := by
  have hany : elements.any Option.isNone = false := by
    rw [List.any_eq_false]
    rintro (_ | v) hv
    · exact absurd hv h
    · simp
  simp [missingPart?, hany]

namespace Action.Arrives

variable {x : Action σ α} {done : α → World σ → Prop} {left : World σ → Prop}

/-- An action that comes to one value and one world. -/
theorem eq_ok {a : α} {v : World σ}
    (h : x.Arrives w (fun a' v' => a' = a ∧ v' = v) fun _ => False) : x w = .ok a v := by
  unfold Action.Arrives at h
  cases hr : x w with
  | ok a' v' =>
    rw [hr] at h
    rw [h.1, h.2]
  | error e v' =>
    rw [hr] at h
    exact h.elim

/-- What an action came to has what was shown. -/
theorem of_run {a : α} {v : World σ} (h : x.Arrives w done left) (hr : x w = .ok a v) :
    done a v := by
  unfold Action.Arrives at h
  rwa [hr] at h

/-- An object that nobody writes is lent for reading, and given back on both ways out. -/
theorem withRead {body : ObjId → Object → Action σ α} (ho : w.heap.get? i = some o)
    (hu : o.loan ≠ .exclusive)
    (hb : ∀ l, Access.read.acquire o.loan = .ok l →
      (body i { o with loan := l }).Arrives (w.lent i o l)
        (fun a v => done a (v.endLoan .read i)) fun v => left (v.endLoan .read i)) :
    (ValueEngine.withRead (some i) body).Arrives w done left := by
  obtain ⟨l, hl⟩ := Access.acquire_read_eq_ok_iff.2 hu
  exact lent ho hl (hb l hl)

/-- What comes to the same as another action, be it in another world, arrives where that
    does. -/
theorem of_eq {y : Action σ α} {v : World σ} (h : y.Arrives v done left) (hrun : x w = y v) :
    x.Arrives w done left := by
  unfold Action.Arrives at h ⊢
  rwa [hrun]

/-- A failure ends in itself, unless the host does not come back from hearing of it. -/
theorem fail_or_throws (hooks : Hooks σ) (cause : Failure) (w : World σ) :
    (ValueEngine.fail hooks cause).Arrives w (fun outcome _ => outcome = .failure cause)
      fun _ => ¬hooks.Returns := by
  cases hr : report hooks cause w with
  | ok u v => exact of_ok (Action.bind_of_ok hr _) rfl
  | error e v =>
    refine of_error (Action.bind_of_error hr _) fun hreturns => ?_
    obtain ⟨v', hv'⟩ := report_eq_ok hreturns cause w
    rw [hr] at hv'
    cases hv'

/-- An action that ends in a failure, if the host comes back from hearing of it, does so
    with a host that does. -/
theorem failure {hooks : Hooks σ} {x : Action σ Outcome} {cause : Failure}
    (h : x.Arrives w (fun outcome _ => outcome = .failure cause) fun _ => ¬hooks.Returns)
    (hreturns : hooks.Returns) : ∃ w', x w = .ok (.failure cause) w' := by
  unfold Action.Arrives at h
  cases hr : x w with
  | ok outcome w' =>
    rw [hr] at h
    exact ⟨w', congrArg (EStateM.Result.ok · w') h⟩
  | error e w' =>
    rw [hr] at h
    exact absurd hreturns h

end Action.Arrives

end ValueEngine

/-
  Value engine — a single step of an iterator.

  If an iterator and its target can be lent, its next element is that of its cursor over
  the elements of the moment, and the cursor is all that changes. If one of them cannot
  be lent nothing happens.

  * `World.moved`: a world in which one iterator is elsewhere.
  * `stepOver`, `next_eq_stepOver`: a step, once the cursor is known.
  * `next_eq`, `next_of_dead`, `next_refused`, `next_eq_fail`, `next_of_rigid`: what the
    next element comes to.
  * `Heap.ahead?`: the slot that the next step passes; `stepped`: every step, by cases.
  * `iterate_eq`, `iterate_of_rigid`: who can be iterated over.
-/
import ValueEngine.Proofs.Procedure.Lending

namespace ValueEngine

variable {σ : Type} {hooks : Hooks σ} {w : World σ} {i t : ObjId} {o p : Object} {cursor : Cursor}
  {elements : List Ref}

/-- The world with an iterator at another place. -/
def World.moved (i : ObjId) (cursor : Cursor) (w : World σ) : World σ :=
  { w with heap := w.heap.update i fun o => { o with payload := .iterator cursor } }

@[simp] theorem World.size_moved (i : ObjId) (cursor : Cursor) (w : World σ) :
    (w.moved i cursor).heap.size = w.heap.size := Heap.size_update ..

theorem World.contents_moved_of_ne {j : ObjId} (hne : j ≠ i) (cursor : Cursor) :
    (w.moved i cursor).heap.contents j = w.heap.contents j := Heap.contents_update_of_ne hne _

/-- An iterator that was moved is where it was moved to, and what else there is where it
    was. -/
theorem World.of_contents_moved {j : ObjId} {a : Payload}
    (ha : (w.moved i cursor).heap.contents j = some a) :
    (j = i ∧ a = .iterator cursor) ∨ (j ≠ i ∧ w.heap.contents j = some a) := by
  rcases Heap.of_contents_update ha with ⟨rfl, _, -, hpayload⟩ | hold
  · exact .inl ⟨rfl, hpayload.symm⟩
  · exact .inr hold

/-- A cursor that passes no element has come to the end. -/
theorem Cursor.next_of_ended (h : (cursor.next elements).2 = none) :
    (cursor.next elements).1 = { cursor with exhausted := true } := by
  cases hend : cursor.exhausted with
  | true =>
    rw [next_of_exhausted hend]
    cases cursor
    cases hend
    rfl
  | false =>
    rcases next_eq_none_iff.1 h with hend' | hge
    · rw [hend] at hend'
      cases hend'
    · rw [next_of_ge hend hge]

/-- A cursor that passes a slot, be it null, is one place further. -/
theorem Cursor.next_of_passed {element : Ref} (h : (cursor.next elements).2 = some element) :
    (cursor.next elements).1 = { cursor with position := cursor.position + 1 } := by
  unfold next at h ⊢
  split at h
  · cases h
  · split at h <;> cases h
    simp_all

/-- The outcome of a step does not depend on the world, and leaves it as it is. -/
theorem stepOutcome_cases (element : Option Ref) :
    (∃ outcome, ∀ w : World σ, stepOutcome element w = .ok outcome w) ∨
      ∃ e, ∀ w : World σ, stepOutcome element w = .error e w := by
  rcases element with _ | _ | v
  · exact .inl ⟨.exhausted, fun _ => rfl⟩
  · exact .inr ⟨_, fun _ => rfl⟩
  · exact .inl ⟨.success v, fun _ => rfl⟩

theorem stepOutcome_ne_failure {w' : World σ} (element : Option Ref) (cause : Failure) :
    stepOutcome element w ≠ .ok (.failure cause) w' := by
  rcases element with _ | _ | v <;> rintro ⟨⟩

/-! ## The next element -/

/-- What a step of an iterator does once its target is lent. -/
def stepOver (hooks : Hooks σ) (i : ObjId) (cursor : Cursor) (target : Object) :
    Action σ Outcome :=
  match target.payload.elements? with
  | some elements => do
    Action.updateObject i fun o => { o with payload := o.payload.movedTo (cursor.next elements).1 }
    stepOutcome (cursor.next elements).2
  | none => fail hooks (.notIterable target.kind)

section Next

variable (hooks) (ho : w.heap.get? i = some o) (hcursor : o.payload = .iterator cursor)

include ho hcursor in
/-- A step of an iterator is taken over the target of the cursor it has. -/
theorem next_eq_stepOver_target : Ref.next hooks (some i) w =
    withWrite (some i) (fun _ _ => withRead cursor.target fun _ => stepOver hooks i cursor) w := by
  refine lend_congr ho fun l => ?_
  simp only [hcursor]
  delta stepOver
  rfl

include ho hcursor in
/-- Nothing happens where the target is not there. -/
theorem next_of_dead (hdead : cursor.target.bind w.heap.get? = none) :
    ∃ e, Ref.next hooks (some i) w = .error e w := by
  cases hl : Access.write.acquire o.loan with
  | error e => exact ⟨e, lend_of_refused ho hl⟩
  | ok l =>
    have hlent : cursor.target.bind (w.lent i o l).heap.get? = none := by
      cases ht : cursor.target with
      | none => rfl
      | some t =>
        rw [ht, Option.bind_some] at hdead
        have hti : t ≠ i := by
          rintro rfl
          cases ho.symm.trans hdead
        exact (Heap.get?_set_of_ne hti _).trans hdead
    refine ⟨.nullReference, ?_⟩
    rw [next_eq_stepOver_target hooks ho hcursor]
    refine (lend_of_error ho hl (lend_of_dead hlent)).trans ?_
    rw [World.endLoan_lent ho hl]

variable (htarget : cursor.target = some t)
include ho hcursor htarget

theorem next_eq_stepOver : Ref.next hooks (some i) w =
    withWrite (some i) (fun _ _ => withRead (some t) fun _ => stepOver hooks i cursor) w := by
  rw [next_eq_stepOver_target hooks ho hcursor, htarget]

variable (hp : w.heap.get? t = some p)
include hp

/-- **The next element of an iterator** is the one of its cursor, which moves. -/
theorem next_eq (hne : i ≠ t) (hl : o.loan = .free) (hm : p.loan ≠ .exclusive)
    (helements : p.payload.elements? = some elements) :
    Ref.next hooks (some i) w =
      stepOutcome (cursor.next elements).2 (w.moved i (cursor.next elements).1) := by
  obtain ⟨l, hl⟩ := Access.acquire_write_eq_ok_iff.2 hl
  obtain ⟨m, hm⟩ := Access.acquire_read_eq_ok_iff.2 hm
  have hp' := World.get?_lent_of_ne (o := o) hp hne l
  let moving (o : Object) : Object :=
    { o with payload := o.payload.movedTo (cursor.next elements).1 }
  have hmoved : w.edited i moving = w.moved i (cursor.next elements).1 := by
    simp only [World.edited, moving, World.moved, Heap.update, ho, hcursor, Cursor.movedTo_next]
  have hback : ((((w.lent i o l).lent t p m).edited i moving).endLoan .read t).endLoan .write i =
      w.edited i moving := by
    rw [World.endLoan_edited hp' hm fun _ _ => rfl, World.endLoan_edited ho hl fun _ _ => rfl]
  have hstep : ∀ v : World σ, stepOver hooks i cursor { p with loan := m } v =
      stepOutcome (cursor.next elements).2 (v.edited i moving) := by
    intro v
    simp only [stepOver, helements]
    rfl
  rw [next_eq_stepOver hooks ho hcursor htarget, ← hmoved, ← hback]
  rcases stepOutcome_cases (σ := σ) (cursor.next elements).2 with ⟨outcome, h⟩ | ⟨e, h⟩
  · rw [h]
    exact lend_of_ok ho hl (lend_of_ok hp' hm ((hstep _).trans (h _)))
  · rw [h]
    exact lend_of_error ho hl (lend_of_error hp' hm ((hstep _).trans (h _)))

/-- Nothing happens where the iterator is lent, or the target is lent for writing. -/
theorem next_refused (h : o.loan ≠ .free ∨ p.loan = .exclusive) :
    ∃ e, Ref.next hooks (some i) w = .error e w := by
  cases hl : Access.write.acquire o.loan with
  | error e => exact ⟨e, lend_of_refused ho hl⟩
  | ok l =>
    have hfree := Access.acquire_write_eq_ok_iff.1 ⟨l, hl⟩
    have hm : Access.read.acquire p.loan = .error .exclusivelyLent := by
      rw [h.resolve_left (by simp [hfree])]
      rfl
    have hne : i ≠ t := by
      rintro rfl
      cases ho.symm.trans hp
      simp [hfree, Access.acquire, Loan.free] at hm
    refine ⟨.exclusivelyLent, ?_⟩
    rw [next_eq_stepOver hooks ho hcursor htarget]
    refine (lend_of_error ho hl (lend_of_refused (World.get?_lent_of_ne hp hne l) hm)).trans ?_
    rw [World.endLoan_lent ho hl]

/-- What is no sequence is a failure, once both are lent. -/
theorem next_eq_fail (helements : p.payload.elements? = none) :
    Ref.next hooks (some i) w = withWrite (some i)
      (fun _ _ => withRead (some t) fun _ _ => fail hooks (.notIterable p.kind)) w := by
  rw [next_eq_stepOver hooks ho hcursor htarget]
  refine lend_congr_at ho fun l _ => ?_
  -- the target may be the iterator itself, which is lent by now
  have hcontents : (w.lent i o l).heap.contents t = some p.payload := by
    rw [World.contents_lent ho, Heap.contents_of_get? hp]
  obtain ⟨q, hq, hqp⟩ := Option.map_eq_some_iff.1 hcontents
  refine lend_congr hq fun m => ?_
  simp only [stepOver, Object.kind, hqp, helements]

/-- **What is no sequence has no next element**: that is a failure, and the iterator stays
    where it is. -/
theorem next_of_rigid (hh : hooks.Within (Action.Leads Still)) (hne : i ≠ t) (hl : o.loan = .free)
    (hm : p.loan ≠ .exclusive) (helements : p.payload.elements? = none) :
    ∃ w', Still w w' ∧ (Ref.next hooks (some i) w = .ok (.failure (.notIterable p.kind)) w' ∨
      ¬hooks.Returns ∧ ∃ e, Ref.next hooks (some i) w = .error e w') := by
  obtain ⟨l, hl⟩ := Access.acquire_write_eq_ok_iff.2 hl
  obtain ⟨m, hm⟩ := Access.acquire_read_eq_ok_iff.2 hm
  have hp' := World.get?_lent_of_ne (o := o) hp hne l
  obtain ⟨v, hv, hfail⟩ := fail_still hh (.notIterable p.kind) ((w.lent i o l).lent t p m)
  refine ⟨(v.endLoan .read t).endLoan .write i, still_lent ho hl (still_lent hp' hm hv), ?_⟩
  rw [next_eq_fail hooks ho hcursor htarget hp helements]
  rcases hfail with h | ⟨hreturns, e, h⟩
  · exact .inl (lend_of_ok ho hl (lend_of_ok hp' hm h))
  · exact .inr ⟨hreturns, e, lend_of_error ho hl (lend_of_error hp' hm h)⟩

end Next

/-! ## What is ahead -/

/-- The slot that the next step of an iterator passes. There is none if the iterator or its
    target cannot be lent, if the target is no sequence, and at the end. -/
def Heap.ahead? (h : Heap) (i : ObjId) : Option Ref := do
  let o ← h.get? i
  match o.payload with
  | .iterator cursor =>
    let p ← cursor.target.bind h.get?
    let elements ← p.payload.elements?
    if o.loan = .free ∧ p.loan ≠ .exclusive then (cursor.next elements).2 else none
  | _ => none

/-- An action that fails with a cause, be it while another object is lent for reading. -/
def Fails (hooks : Hooks σ) (cause : Failure) (x : Action σ Outcome) : Prop :=
  x = fail hooks cause ∨ ∃ t, x = withRead (some t) fun _ _ => fail hooks cause

/-- What the next element of an object comes to. -/
inductive Stepped (hooks : Hooks σ) (w : World σ) (i : ObjId) : Prop
  /-- Something cannot be lent, or is not there, and nothing happens. -/
  | refused {e : Abort} :
      w.heap.ahead? i = none → Ref.next hooks (some i) w = .error e w → Stepped hooks w i
  /-- What is no iterator, or is one over no sequence, fails while it is lent. -/
  | failed {x : Action σ Outcome} {cause : Failure} :
      w.heap.ahead? i = none → Ref.next hooks (some i) w = withWrite (some i) (fun _ _ => x) w →
      Fails hooks cause x → Stepped hooks w i
  /-- An iterator over a sequence, both of which can be lent, moves. -/
  | moved {o : Object} {cursor : Cursor} {elements : List Ref} :
      w.heap.get? i = some o → o.loan = .free → o.payload = .iterator cursor →
      w.heap.ahead? i = (cursor.next elements).2 →
      Ref.next hooks (some i) w =
        stepOutcome (cursor.next elements).2 (w.moved i (cursor.next elements).1) →
      Stepped hooks w i

theorem stepped_of_iterator (hooks : Hooks σ) (ho : w.heap.get? i = some o)
    (hcursor : o.payload = .iterator cursor) : Stepped hooks w i := by
  cases hlive : cursor.target.bind w.heap.get? with
  | none =>
    have hahead : w.heap.ahead? i = none := by simp [Heap.ahead?, ho, hcursor, hlive]
    obtain ⟨e, hrun⟩ := next_of_dead hooks ho hcursor hlive
    exact .refused hahead hrun
  | some p =>
    obtain ⟨t, ht, hp⟩ := Option.bind_eq_some_iff.1 hlive
    cases helements : p.payload.elements? with
    | some elements =>
      have hahead : w.heap.ahead? i =
          if o.loan = .free ∧ p.loan ≠ .exclusive then (cursor.next elements).2 else none := by
        simp [Heap.ahead?, ho, hcursor, hlive, helements]
      by_cases hloans : o.loan = .free ∧ p.loan ≠ .exclusive
      · rw [if_pos hloans] at hahead
        have hne : i ≠ t := by
          rintro rfl
          cases ho.symm.trans hp
          rw [hcursor] at helements
          cases helements
        exact .moved ho hloans.1 hcursor hahead
          (next_eq hooks ho hcursor ht hp hne hloans.1 hloans.2 helements)
      · rw [if_neg hloans] at hahead
        have hrefused : o.loan ≠ .free ∨ p.loan = .exclusive :=
          (Decidable.not_and_iff_not_or_not.1 hloans).imp_right Decidable.not_not.1
        obtain ⟨e, hrun⟩ := next_refused hooks ho hcursor ht hp hrefused
        exact .refused hahead hrun
    | none =>
      have hahead : w.heap.ahead? i = none := by
        simp [Heap.ahead?, ho, hcursor, hlive, helements]
      exact .failed hahead (next_eq_fail hooks ho hcursor ht hp helements) (.inr ⟨t, rfl⟩)

/-- **What the next element comes to**, whatever the object is. -/
theorem stepped (hooks : Hooks σ) (w : World σ) (i : ObjId) : Stepped hooks w i := by
  cases ho : w.heap.get? i with
  | none => exact .refused (by simp [Heap.ahead?, ho]) (lend_of_dead ho)
  | some o =>
    cases hp : o.payload with
    | iterator cursor => exact stepped_of_iterator hooks ho hp
    | _ =>
      refine .failed (x := fail hooks (.notIterator o.kind)) (by simp [Heap.ahead?, ho, hp])
        (lend_congr ho fun l => ?_) (.inl rfl)
      simp only [hp, Object.kind]

/-! ## Iterators -/

/-- **An iterator over a sequence** is made at its beginning. -/
theorem iterate_eq (hp : w.heap.get? t = some p) (hm : p.loan ≠ .exclusive)
    (helements : p.payload.elements? = some elements) :
    Ref.iterate hooks (some t) w = .ok (.success ⟨w.heap.size⟩)
      { w with heap := (w.heap.allocate
        { payload := .iterator { target := some t }, type := some Kind.iterator.typeId }).2 } := by
  obtain ⟨m, hm⟩ := Access.acquire_read_eq_ok_iff.2 hm
  rw [Ref.iterate, Action.bind_of_ok (peek_of_granted hp hm)]
  simp only [helements]
  rfl

/-- What is no sequence cannot be iterated over. -/
theorem iterate_of_rigid (hp : w.heap.get? t = some p) (hm : p.loan ≠ .exclusive)
    (helements : p.payload.elements? = none) :
    Ref.iterate hooks (some t) w = fail hooks (.notIterable p.kind) w := by
  obtain ⟨m, hm⟩ := Access.acquire_read_eq_ok_iff.2 hm
  rw [Ref.iterate, Action.bind_of_ok (peek_of_granted hp hm)]
  simp only [helements]
  rfl

end ValueEngine

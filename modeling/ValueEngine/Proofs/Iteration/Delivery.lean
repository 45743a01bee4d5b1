/-
  Value engine — iterators lose no more than null slots.

  A step that gives nothing leaves the iterator where it was, unless there was a null slot
  at its place: then it has moved before it turns out that there is nothing to give. So the
  place of an iterator is the number of the elements that it has given, and of the null
  slots that it has come to.

  * `next_of_ahead`: a step that passes a slot.
  * `next_of_idle`: a step that passes none, whatever host code it enters.
  * `steps_lose_only_null_slots`: every step, and every run.
  * `position_ne_given`: an iterator that has lost a place.
-/
import ValueEngine.Proofs.Iteration.Fairness

namespace ValueEngine

/-! ## Single steps -/

section Steps

variable {σ τ : Type} {i : ObjId} {cursor : Cursor}

/-- The slot that is ahead is passed, be it null. -/
theorem next_of_ahead {hooks : Hooks σ} {w : World σ} {element : Ref}
    (hi : w.heap.contents i = some (.iterator cursor))
    (hahead : w.heap.ahead? i = some element) :
    Ref.next hooks (some i) w =
      stepOutcome (some element) (w.moved i { cursor with position := cursor.position + 1 }) := by
  cases stepped hooks w i with
  | refused hnone => cases hnone.symm.trans hahead
  | failed hnone => cases hnone.symm.trans hahead
  | @moved o cursor' elements ho _ hp hnext hrun =>
    rw [Heap.contents_of_get? ho, hp] at hi
    cases hi
    rw [hnext] at hahead
    rw [hrun, hahead, Cursor.next_of_passed hahead]

/-- What is done with an object while an operation has it for writing leaves alone what it
    holds, if all that is done is to run fair code. -/
theorem contents_withWrite {α : Type} {x : Action (Hands (Ledger τ)) α} (hx : Fair x)
    {lent : List Guard} {w : World (Hands (Ledger τ))}
    (he : Exact (lent ++ w.host.guards) w.heap) :
    ((withWrite (some i) fun _ _ => x).after w).heap.contents i = w.heap.contents i := by
  unfold withWrite
  cases htake : takeLoan .write (some i) w with
  | error e v => rw [after_lend_of_refused htake, takeLoan_error htake]
  | ok taken v =>
    obtain ⟨j, o⟩ := taken
    obtain ⟨he', hhost⟩ := Accounted.exact_of_takeLoan htake he
    cases ref_of_takeLoan htake
    have hspared := hx.respectful (· = i) ({ held := some i, access := .write } :: lent) v
      (by rwa [hhost]) (by rintro j rfl; exact List.mem_cons_self)
    obtain ⟨p, l, hp, -, -, rfl⟩ := takeLoan_ok htake
    rw [after_lend htake, World.contents_endLoan, Heap.contents, hspared.spared i rfl]
    exact congrFun (Heap.contents_set (p := { p with loan := l }) hp rfl) i

/-- **A step that passes no slot** ends the iterator, or gives a failure or an abort and
    leaves it as it was. -/
theorem next_of_idle {hooks : Hooks (Hands (Ledger τ))} (hh : hooks.Within Fair)
    {lent : List Guard} {w : World (Hands (Ledger τ))}
    (he : Exact (lent ++ w.host.guards) w.heap)
    (hi : w.heap.contents i = some (.iterator cursor)) (hahead : w.heap.ahead? i = none) :
    Ref.next hooks (some i) w = .ok .exhausted (w.moved i { cursor with exhausted := true }) ∨
      ∃ w', w'.heap.contents i = some (.iterator cursor) ∧
        ((∃ cause, Ref.next hooks (some i) w = .ok (.failure cause) w') ∨
          ∃ e, Ref.next hooks (some i) w = .error e w') := by
  cases stepped hooks w i with
  | refused _ hrun => exact .inr ⟨w, hi, .inr ⟨_, hrun⟩⟩
  | @failed x cause _ hrun hx =>
    have hcontents := contents_withWrite (i := i) (hx.fair hh) he
    have harrives : (withWrite (some i) fun _ _ => x).Arrives w
        (fun outcome _ => outcome = .failure cause) fun _ => True :=
      .lend trivial fun _ _ _ _ _ _ => hx.arrives _
    right
    rw [Action.after, ← hrun] at hcontents
    rw [Action.Arrives, ← hrun] at harrives
    cases h : Ref.next hooks (some i) w with
    | ok outcome w' =>
      rw [h] at hcontents harrives
      exact ⟨w', hcontents.trans hi, .inl ⟨cause, by rw [← harrives]⟩⟩
    | error e w' =>
      rw [h] at hcontents
      exact ⟨w', hcontents.trans hi, .inr ⟨e, rfl⟩⟩
  | @moved o cursor' elements ho _ hp hnext hrun =>
    rw [Heap.contents_of_get? ho, hp] at hi
    cases hi
    rw [hnext] at hahead
    left
    rw [hrun, hahead, Cursor.next_of_ended hahead]
    rfl

end Steps

/-! ## Runs -/

/-- **A step that gives nothing loses nothing but a null slot**, whatever host code it
    enters, in every state there is between operations or inside of them. If a slot is
    ahead it is passed: an object in it is given, and if it is null the step is left with
    the iterator one place further. If none is ahead the iterator has ended, or it is where
    it was and as it was. So over every run the place of an iterator is the number of the
    elements that it gave and of the null slots that it came to. -/
theorem steps_lose_only_null_slots {τ : Type} :
    (∀ (hooks : Hooks (Hands (Ledger τ))) (lent : List Guard) (w : World (Hands (Ledger τ)))
      (i : ObjId) (cursor : Cursor), hooks.Within FairCode →
      Exact (lent ++ w.host.guards) w.heap → w.heap.contents i = some (.iterator cursor) →
      (∀ v, w.heap.ahead? i = some (some v) → Ref.next hooks (some i) w =
        .ok (.success v) (w.moved i { cursor with position := cursor.position + 1 })) ∧
      (w.heap.ahead? i = some none → Ref.next hooks (some i) w =
        .error .nullSuccess (w.moved i { cursor with position := cursor.position + 1 })) ∧
      (w.heap.ahead? i = none →
        Ref.next hooks (some i) w = .ok .exhausted (w.moved i { cursor with exhausted := true }) ∨
        ∃ w', w'.heap.contents i = some (.iterator cursor) ∧
          ((∃ cause, Ref.next hooks (some i) w = .ok (.failure cause) w') ∨
            ∃ e, Ref.next hooks (some i) w = .error e w'))) ∧
    ∀ w : World (Hands (Ledger τ)), Recorded w →
      Exact w.host.guards w.heap ∧
      ∀ i cursor, w.heap.contents i = some (.iterator cursor) →
        cursor.position = w.host.own.given (some i) + w.host.own.lost (some i) := by
  refine ⟨fun hooks lent w i cursor hh he hi => ⟨fun v hahead => ?_, fun hahead => ?_,
    fun hahead => ?_⟩, fun w hw => ?_⟩
  · rw [next_of_ahead hi hahead]
    rfl
  · rw [next_of_ahead hi hahead]
    rfl
  · have hfair : hooks.Within Fair :=
      ⟨fun hook h cause => (hh.onFailure hook h cause).fair,
        fun hook h op a b outcome => (hh.onUnsupported hook h op a b outcome).fair⟩
    exact next_of_idle hfair he hi hahead
  · exact ⟨hw.exact_counted.1, hw.exact_counted.2.position⟩

/-! ### A list with a null slot -/

/-- The list that the host of a new engine makes. -/
def holedList : ObjId := ⟨Heap.initial.size⟩

/-- The iterator over it. -/
def holedIterator : ObjId := ⟨Heap.initial.size + 1⟩

/-- A list of a null slot and None, with an iterator at its beginning. -/
def holed : World (Hands (Ledger Unit)) :=
  ((Request.unary .iterate (some holedList)).run {}).after
    ((make (some (.list [none, some noneId])) (some Kind.list.typeId)).after
      (.initial { own := { own := () } }))

theorem recorded_holed : Recorded holed :=
  .step (.step (.start ()) (.make (by rintro _ ⟨⟩))) (.request nofun nofun nofun nofun nofun)

/-- The same after the iterator has come to the null slot. -/
def stumbled : World (Hands (Ledger Unit)) := (Ledger.next {} (some holedIterator)).after holed

theorem recorded_stumbled : Recorded stumbled := .step recorded_holed (.next nofun nofun)

/-- An iterator at a null slot aborts one place further; the next step gives what is
    there. -/
theorem steps_lose_only_null_slots_holed :
    Ref.next {} (some holedIterator) holed = .error .nullSuccess
      (holed.moved holedIterator { target := some holedList, position := 1 }) ∧
    Ref.next {} (some holedIterator) stumbled = .ok (.success noneId)
      (stumbled.moved holedIterator { target := some holedList, position := 2 }) ∧
    stumbled.host.own.given (some holedIterator) + stumbled.host.own.lost (some holedIterator) =
      1 := by
  obtain ⟨hstep, hrun⟩ := steps_lose_only_null_slots (τ := Unit)
  have hooks : Hooks.Within FairCode ({} : Hooks (Hands (Ledger Unit))) :=
    Hooks.within_none _
  obtain ⟨hexact, -⟩ := hrun holed recorded_holed
  obtain ⟨hexact', hposition⟩ := hrun stumbled recorded_stumbled
  have hcursor : stumbled.heap.contents holedIterator =
      some (.iterator { target := some holedList, position := 1 }) := by decide
  obtain ⟨-, hnull, -⟩ := hstep {} [] holed holedIterator { target := some holedList } hooks
    hexact (by decide)
  obtain ⟨hgiven, -⟩ := hstep {} [] stumbled holedIterator _ hooks hexact' hcursor
  exact ⟨hnull (by decide), hgiven noneId (by decide), (hposition _ _ hcursor).symm⟩

/-- **A step that is left may lose a place**, and then the place of an iterator is not the
    number of the elements that it has given. -/
theorem position_ne_given :
    (∃ w', Ref.next {} (some holedIterator) holed = .error .nullSuccess w' ∧
      holed.heap.contents holedIterator = some (.iterator { target := some holedList }) ∧
      w'.heap.contents holedIterator =
        some (.iterator { target := some holedList, position := 1 })) ∧
    ¬∀ w : World (Hands (Ledger Unit)), Recorded w → ∀ i cursor,
      w.heap.contents i = some (.iterator cursor) →
      cursor.position = w.host.own.given (some i) := by
  have hstart : holed.heap.contents holedIterator =
      some (.iterator { target := some holedList }) := by decide
  have hahead : holed.heap.ahead? holedIterator = some none := by decide
  refine ⟨⟨_, next_of_ahead hstart hahead, hstart, by decide⟩, fun hlossless => ?_⟩
  have hcursor : stumbled.heap.contents holedIterator =
      some (.iterator { target := some holedList, position := 1 }) := by decide
  have hgiven : stumbled.host.own.given (some holedIterator) = 0 := by decide
  have hposition := hlossless stumbled recorded_stumbled _ _ hcursor
  rw [hgiven] at hposition
  cases hposition

end ValueEngine

/-
  Value engine — what a host does through a guard keeps a world sound.

  A guard gives access to its object as it is now. Changes in place may leave null
  slots, but nothing that is gone: what they put in is there.

  * `guard_secures`, `release_secures`: taking and ending a guard.
  * `Secures.object_bind`: what is done with the object of a guard.
  * `push_secures`, `insertEntry_secures`, …: changes in place.
-/
import ValueEngine.Proofs.Soundness.Operations

namespace ValueEngine

variable {σ α : Type} {w : World σ}

/-! ## Taking and ending -/

theorem guard_secures (access : Access) (r : Ref) :
    Secures .lenient (Ref.guard access r : Action σ Guard) w fun g => g.held.toList := by
  have htake : Secures .lenient (takeLoan access r : Action σ _) w fun p => [p.1] := by
    intro hw
    cases ht : takeLoan access r w with
    | error e v =>
      cases takeLoan_error ht
      refine ⟨(fun _ _ h => by cases h), fun e' w' he => ?_⟩
      cases he
      exact ⟨trivial, hw, .refl w⟩
    | ok p v =>
      refine ⟨fun a w' ha => ?_, fun _ _ h => by cases h⟩
      cases ha
      obtain ⟨hv, hfollows, -, ho⟩ := Secures.takeLoan_follows (fun _ => trivial) hw ht
      refine ⟨hv, hfollows, fun i hi => ?_⟩
      rw [List.mem_singleton.1 hi]
      exact Heap.live_of_get? ho
  exact htake.bind fun p _ _ hi => .pure hi

theorem release_secures (g : Guard) :
    Secures .lenient (g.release : Action σ Unit) w fun _ => [] := by
  unfold Guard.release
  split
  · refine fun hw => ⟨fun a w' h => ?_, fun _ _ h => by cases h⟩
    cases h
    exact ⟨Secures.endLoan_sound (fun _ => trivial) hw _, .setLoan w _ _, by simp⟩
  · exact .pure_nil _

/-! ## The object of a guard -/

theorem object_secures (g : Guard) :
    Secures .lenient (g.object : Action σ _) w fun _ => [] := by
  refine .heap_bind ?_
  split
  · split
    · exact .pure_nil _
    · exact .abort trivial _
  · exact .abort trivial _

/-- The object of a guard is one that fits. -/
theorem Secures.object_bind {refs : α → List ObjId} {g : Guard} {f : ObjId × Object → Action σ α}
    (hf : ∀ i o, w.heap.get? i = some o → o.Fits True w.heap i →
      Secures .lenient (f (i, o)) w refs) :
    Secures .lenient (g.object >>= f) w refs := by
  intro hw
  refine ((object_secures g).bind_run fun p v hrun _ _ => ?_ :
    Secures .lenient (g.object >>= f) w refs) hw
  obtain ⟨i, o⟩ := p
  obtain ⟨rfl, -, ho⟩ := Guard.object_ok hrun
  exact hf i o ho (hw.heap.fits i o ho)

/-! ## Changes in place -/

theorem updateList_secures (g : Guard) {f : List Ref → List Ref}
    (hf : ∀ elements, (∀ r ∈ elements, w.heap.Admits True r) → ∀ r ∈ f elements,
      w.heap.Admits True r) :
    Secures .lenient (g.updateList f : Action σ Unit) w fun _ => [] := by
  refine .object_bind fun i o ho hfits => ?_
  cases hp : o.payload with
  | list elements =>
    simp only [Object.toList, hp]
    refine .change trivial fun _ _ ho' => ho'.setPayload (.list (hf elements ?_))
    have hslots := hfits.payload.slots
    rwa [hp] at hslots
  | _ =>
    simp only [Object.toList, hp]
    exact .abort trivial _

theorem updateDict_secures (g : Guard) {f : Table Ref → Table Ref}
    (hf : ∀ entries, (∀ r ∈ entries.values, w.heap.Admits True r) → ∀ r ∈ (f entries).values,
      w.heap.Admits True r)
    (ho : ∀ entries, entries.Ascending → (f entries).Ascending) :
    Secures .lenient (g.updateDict f : Action σ (Table Ref)) w fun _ => [] := by
  refine .object_bind fun i o hi hfits => ?_
  cases hp : o.payload with
  | dict entries =>
    simp only [Object.toDict, hp]
    show Secures .lenient (do Action.setPayload i (.dict (f entries)); return entries) w _
    refine .bind_nil (.change trivial fun _ _ ho' => ho'.setPayload (.dict (hf entries ?_)
      (ho entries (hfits.payload.ordered entries hp)))) fun _ _ _ => .pure_nil _
    have hslots := hfits.payload.slots
    rwa [hp] at hslots
  | _ =>
    simp only [Object.toDict, hp]
    exact .abort trivial _

theorem push_secures (g : Guard) {value : Ref} (hv : w.heap.Admits True value) :
    Secures .lenient (g.push value : Action σ Unit) w fun _ => [] := by
  refine updateList_secures g fun elements he r hr => ?_
  rcases List.mem_append.1 hr with hr | hr
  · exact he r hr
  · rwa [List.mem_singleton.1 hr]

theorem truncate_secures (g : Guard) (length : Nat) :
    Secures .lenient (g.truncate length : Action σ Unit) w fun _ => [] :=
  updateList_secures g fun _ he r hr => he r (List.mem_of_mem_take hr)

theorem insertEntry_secures (g : Guard) (key : Bytes) {value : Ref}
    (hv : w.heap.Admits True value) :
    Secures .lenient (g.insertEntry key value : Action σ Unit) w fun _ => [] := by
  refine .discard (updateDict_secures g (fun entries he r hr => ?_) fun _ ho => ho.insert _ _)
  rcases Table.mem_values_of_insert hr with rfl | hr
  · exact hv
  · exact he r hr

theorem eraseEntry_secures (g : Guard) (key : Bytes) :
    Secures .lenient (g.eraseEntry key : Action σ Bool) w fun _ => [] :=
  .bind_nil (updateDict_secures g (fun _ he r hr => he r (Table.mem_values_of_erase hr))
    fun _ ho => ho.erase _) fun _ _ _ => .pure_nil _

theorem bindThrough_secures (g : Guard) (name : Bytes) {value : Ref}
    (hv : w.heap.Admits True value) :
    Secures .lenient (g.bindAttribute name value : Action σ Unit) w fun _ => [] :=
  .object_bind fun i _ _ _ => bindOwn_secures trivial i name hv

theorem unbindThrough_secures (g : Guard) (name : Bytes) :
    Secures .lenient (g.unbindAttribute name : Action σ Bool) w fun _ => [] :=
  .object_bind fun i _ _ _ =>
    (unbindOwn_secures trivial i name).bind_nil fun _ _ _ => .pure_nil _

end ValueEngine

/-
  Value engine — where a call goes.

  A call looks at its callee once, and gives it back before anything runs. A native function
  is entered at once, a function goes to the evaluator, anything else is a failure. So what
  runs finds the world of the call, and may change the very object that it is run as.

  * `call_of_native`, `call_of_function`, `call_of_no_target`: what can be called.
  * `call_of_uncallable`: what cannot.
  * `call_of_dead`, `call_of_written`: what cannot be looked at.
  * `call_congr`: what a call may depend on of the evaluator that it is given.
-/
import ValueEngine.Proofs.Reading.Looking
import ValueEngine.Proofs.Reporting.Operations

namespace ValueEngine

variable {σ α : Type} {w : World σ} {f : Ref} {i : ObjId} {o : Object} {p : Payload}
  {code : NativeId} (hooks : Hooks σ) (natives : Natives σ) (evaluator : Evaluator σ)
  (args : List Ref)

/-- To look at an object for a value leaves everything as it was. -/
theorem withRead_pure (ho : w.heap.get? i = some o) (hu : o.loan ≠ .exclusive) (a : α) :
    withRead (some i) (fun _ _ => pure a) w = .ok a w := by
  obtain ⟨l, hl⟩ := Access.acquire_read_eq_ok_iff.2 hu
  refine (lend_of_ok ho hl (Action.pure_apply a _)).trans ?_
  rw [World.endLoan_lent ho hl]

/-! ## What cannot be looked at -/

theorem call_of_dead (hf : f.bind w.heap.get? = none) :
    Ref.call hooks natives (some evaluator) f args w = .error .nullReference w :=
  Action.bind_of_error (lend_of_dead hf) _

theorem call_of_written (ho : w.heap.get? i = some o) (hu : o.loan = .exclusive) :
    Ref.call hooks natives (some evaluator) (some i) args w = .error .exclusivelyLent w := by
  have hl : Access.read.acquire o.loan = .error .exclusivelyLent := by rw [hu]; rfl
  exact Action.bind_of_error (lend_of_refused ho hl) _

/-! ## What can be called -/

section Callable

variable (ho : w.heap.get? i = some o) (hu : o.loan ≠ .exclusive)
include ho hu

/-- A native function is entered in the world of the call. -/
theorem call_of_native (hp : o.payload = .nativeFunction (some code)) :
    Ref.call hooks natives (some evaluator) (some i) args w = natives code evaluator args w := by
  have htarget : callTarget hooks (some i) w = .ok (.native code) w := by
    rw [← withRead_pure ho hu]
    exact lend_congr ho fun l => by simp only [hp]
  exact Action.bind_of_ok htarget _

/-- What has a program to run, or none, goes to the evaluator in the world of the call. -/
theorem call_of_evaluated (hp : o.kind = .function ∨ o.payload = .nativeFunction none) :
    Ref.call hooks natives (some evaluator) (some i) args w = evaluator.run (some i) args w := by
  have htarget : callTarget hooks (some i) w = .ok .evaluator w := by
    rw [← withRead_pure ho hu]
    refine lend_congr ho fun l => ?_
    rcases hp with hk | hp
    · rw [Object.kind] at hk
      cases hp : o.payload with
      | function program => rfl
      | _ => rw [hp] at hk; cases hk
    · simp only [hp]
  exact Action.bind_of_ok htarget _

theorem call_of_function (hk : o.kind = .function) :
    Ref.call hooks natives (some evaluator) (some i) args w = evaluator.run (some i) args w :=
  call_of_evaluated hooks natives evaluator args ho hu (.inl hk)

theorem call_of_no_target (hp : o.payload = .nativeFunction none) :
    Ref.call hooks natives (some evaluator) (some i) args w = evaluator.run (some i) args w :=
  call_of_evaluated hooks natives evaluator args ho hu (.inr hp)

end Callable

/-- What cannot be called is a failure, told while it is lent for reading. -/
theorem call_of_uncallable (ho : w.heap.get? i = some o) (hk : o.kind.canBeCalled = false) :
    Ref.call hooks natives (some evaluator) (some i) args w =
      withRead (some i) (fun _ _ => fail hooks (.notCallable o.kind)) w := by
  have hcalls : (Request.call (some i) args).CallsNobody w := by
    intro j q hj hq
    cases hj
    cases ho.symm.trans hq
    exact hk
  exact (call_of_callsNobody hcalls hooks natives evaluator).trans (lend_congr ho fun _ => rfl)

/-- What a call of an object is made of. -/
theorem Object.cases_of_call (o : Object) :
    (∃ code, o.payload = .nativeFunction (some code)) ∨ o.payload = .nativeFunction none ∨
      o.kind = .function ∨ o.kind.canBeCalled = false := by
  rw [Object.kind]
  cases hp : o.payload with
  | nativeFunction target =>
    cases target with
    | none => exact .inr (.inl rfl)
    | some code => exact .inl ⟨code, rfl⟩
  | function program => exact .inr (.inr (.inl rfl))
  | _ => exact .inr (.inr (.inr rfl))

variable {hooks natives evaluator args}

/-- Two evaluators make no difference to a call if they make none to native code, and what
    goes to them they do alike. -/
theorem call_congr {evaluator' : Evaluator σ}
    (hnative : ∀ code, natives code evaluator args = natives code evaluator' args)
    (hevaluated : ∀ i o, f = some i → w.heap.get? i = some o → o.loan ≠ .exclusive →
      o.kind = .function ∨ o.payload = .nativeFunction none →
      evaluator.run f args w = evaluator'.run f args w) :
    Ref.call hooks natives (some evaluator) f args w =
      Ref.call hooks natives (some evaluator') f args w := by
  cases hf : f.bind w.heap.get? with
  | none => rw [call_of_dead _ _ _ _ hf, call_of_dead _ _ _ _ hf]
  | some o =>
    obtain ⟨i, rfl, ho⟩ := Option.bind_eq_some_iff.1 hf
    by_cases hu : o.loan = .exclusive
    · rw [call_of_written _ _ _ _ ho hu, call_of_written _ _ _ _ ho hu]
    rcases o.cases_of_call with ⟨code, hp⟩ | hp | hk | hk
    · rw [call_of_native _ _ _ _ ho hu hp, call_of_native _ _ _ _ ho hu hp, hnative]
    · rw [call_of_no_target _ _ _ _ ho hu hp, call_of_no_target _ _ _ _ ho hu hp]
      exact hevaluated i o rfl ho hu (.inr hp)
    · rw [call_of_function _ _ _ _ ho hu hk, call_of_function _ _ _ _ ho hu hk]
      exact hevaluated i o rfl ho hu (.inl hk)
    · rw [call_of_uncallable _ _ _ _ ho hk, call_of_uncallable _ _ _ _ ho hk]

end ValueEngine

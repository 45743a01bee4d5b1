/-
  Value engine — calls through an evaluator.

  An evaluator runs functions itself and hands on what is none, and a call hands functions
  to the evaluator and enters native code. So neither can tell which of the two was asked:
  each sends what it does not run to the other once, and nothing goes back and forth. All
  that would is a native function without code, which cannot be made but by hand.

  * `Evaluator.serve`: what an evaluator does with a call.
  * `Script.executor`: the evaluator of scripts, for calls of any length.
  * `Script.executor_serves`: it serves; the bound on its depth never shows.
  * `calls_agree`: what calls and evaluators do, and that they do the same.
-/
import ValueEngine.Proofs.Call.Dispatch
import ValueEngine.Proofs.Operator.Dispatch
import ValueEngine.Script.Native

namespace ValueEngine

variable {σ : Type} {f : Ref} {args : List Ref} {w : World σ} {i : ObjId} {o : Object}

/-! ## Looking at the callee -/

theorem peek_eq_ok (ho : w.heap.get? i = some o) (hu : o.loan ≠ .exclusive) :
    ∃ l, peek (some i) w = .ok { o with loan := l } w := by
  obtain ⟨l, hl⟩ := Access.acquire_read_eq_ok_iff.2 hu
  exact ⟨l, peek_of_granted ho hl⟩

theorem peek_of_dead (hf : f.bind w.heap.get? = none) : peek f w = .error .nullReference w := by
  rw [peek, withRead, lend_of_dead hf]

theorem peek_of_written (ho : w.heap.get? i = some o) (hu : o.loan = .exclusive) :
    peek (some i) w = .error .exclusivelyLent w := by
  have hl : Access.read.acquire o.loan = .error .exclusivelyLent := by rw [hu]; rfl
  rw [peek, withRead, lend_of_refused ho hl]

/-! ## Serving calls -/

/-- What is done with a call by an evaluator that runs functions as `interpret` says: it
    looks at the callee, and hands what is no function on, with the same arguments and
    nothing lent. Native code that is entered thereby may come back to `evaluator`. -/
def Evaluator.serve (hooks : Hooks σ) (natives : Natives σ)
    (interpret : Ref → List Ref → Action σ Outcome) (evaluator : Evaluator σ) (f : Ref)
    (args : List Ref) : Action σ Outcome := do
  let o ← peek f
  if o.kind = .function then interpret f args
  else Ref.call hooks natives (some evaluator) f args

section Serve

variable {hooks : Hooks σ} {natives : Natives σ} {interpret : Ref → List Ref → Action σ Outcome}
  {evaluator evaluator' : Evaluator σ}

theorem serve_of_function (ho : w.heap.get? i = some o) (hu : o.loan ≠ .exclusive)
    (hk : o.kind = .function) :
    evaluator.serve hooks natives interpret (some i) args w = interpret (some i) args w := by
  obtain ⟨l, hpeek⟩ := peek_eq_ok ho hu
  have hkind : Object.kind { o with loan := l } = .function := hk
  rw [Evaluator.serve, Action.bind_of_ok hpeek, if_pos hkind]

/-- What is no function, or cannot be looked at, is called. -/
theorem serve_of_not_function
    (hk : ∀ i o, f = some i → w.heap.get? i = some o → o.loan ≠ .exclusive →
      o.kind ≠ .function) :
    evaluator.serve hooks natives interpret f args w =
      Ref.call hooks natives (some evaluator) f args w := by
  cases hf : f.bind w.heap.get? with
  | none =>
    rw [call_of_dead _ _ _ _ hf]
    exact Action.bind_of_error (peek_of_dead hf) _
  | some o =>
    obtain ⟨i, rfl, ho⟩ := Option.bind_eq_some_iff.1 hf
    by_cases hu : o.loan = .exclusive
    · rw [call_of_written _ _ _ _ ho hu]
      exact Action.bind_of_error (peek_of_written ho hu) _
    · obtain ⟨l, hpeek⟩ := peek_eq_ok ho hu
      have hkind : Object.kind { o with loan := l } ≠ .function := hk i o rfl ho hu
      rw [Evaluator.serve, Action.bind_of_ok hpeek, if_neg hkind]

/-- Two evaluators serve alike if they make no difference to native code, and do the same
    with native functions that have none. -/
theorem serve_congr (hnative : ∀ code, natives code evaluator args = natives code evaluator' args)
    (htargetless : ∀ i o, f = some i → w.heap.get? i = some o → o.loan ≠ .exclusive →
      o.payload = .nativeFunction none → evaluator.run f args w = evaluator'.run f args w) :
    evaluator.serve hooks natives interpret f args w =
      evaluator'.serve hooks natives interpret f args w := by
  by_cases hk : ∃ i o, f = some i ∧ w.heap.get? i = some o ∧ o.loan ≠ .exclusive ∧
      o.kind = .function
  · obtain ⟨i, o, rfl, ho, hu, hk⟩ := hk
    rw [serve_of_function ho hu hk, serve_of_function ho hu hk]
  · have hother : ∀ i o, f = some i → w.heap.get? i = some o → o.loan ≠ .exclusive →
        o.kind ≠ .function := fun i o hf ho hu h => hk ⟨i, o, hf, ho, hu, h⟩
    rw [serve_of_not_function hother, serve_of_not_function hother]
    refine call_congr hnative fun i o hf ho hu hp => ?_
    exact htargetless i o hf ho hu (hp.resolve_left (hother i o hf ho hu))

end Serve

/-! ## The evaluator of scripts -/

namespace Script

variable {hooks : Hooks Memory} {w : World Memory} {n : Nat}

/-- The evaluator of scripts, whatever it calls: each call is as deep as its arguments
    allow. -/
def executor (hooks : Hooks Memory) : Evaluator Memory :=
  ⟨fun f args => (evaluator hooks args).run f args⟩

/-- What running a function is: its program is interpreted, and it is lent for reading
    meanwhile. -/
def interpretLent (f : Ref) (args : List Ref) : Act Outcome :=
  withRead f fun _ o =>
    match o.payload with
    | .function program => interpret program args
    | _ => Action.abort .notCode

/-- One more level of calls is to serve, with what is handed on going a level down. -/
theorem callWithin_succ (n : Nat) (f : Ref) (args : List Ref) :
    callWithin hooks (n + 1) f args =
      Evaluator.serve hooks (natives hooks) interpretLent ⟨callWithin hooks n⟩ f args := by
  funext w
  cases hf : f.bind w.heap.get? with
  | none =>
    have hlook : interpreted? f args w = .error .nullReference w := by
      rw [interpreted?, withRead, lend_of_dead hf]
    exact (Action.bind_of_error hlook _).trans (Action.bind_of_error (peek_of_dead hf) _).symm
  | some o =>
    obtain ⟨i, rfl, ho⟩ := Option.bind_eq_some_iff.1 hf
    by_cases hu : o.loan = .exclusive
    · have hl : Access.read.acquire o.loan = .error .exclusivelyLent := by rw [hu]; rfl
      have hlook : interpreted? (some i) args w = .error .exclusivelyLent w := by
        rw [interpreted?, withRead, lend_of_refused ho hl]
      exact (Action.bind_of_error hlook _).trans
        (Action.bind_of_error (peek_of_written ho hu) _).symm
    by_cases hk : o.kind = .function
    · rw [serve_of_function ho hu hk]
      have hlook : interpreted? (some i) args w =
          (do return some (← interpretLent (some i) args) : Act (Option Outcome)) w := by
        refine (lend_congr_at ho fun l _ => ?_).trans (lend_map some w)
        rw [Object.kind] at hk
        cases hp : o.payload with
        | function program => rfl
        | _ => rw [hp] at hk; cases hk
      simp only [callWithin, bind, EStateM.bind] at hlook ⊢
      rw [hlook]
      cases interpretLent (some i) args w <;> rfl
    · have hlook : interpreted? (some i) args w = .ok none w := by
        rw [← withRead_pure ho hu]
        refine lend_congr ho fun l => ?_
        rw [Object.kind] at hk
        cases hp : o.payload with
        | function program => exact absurd (by rw [hp]; rfl) hk
        | _ => rfl
      rw [serve_of_not_function fun j q hj hq _ => ?_]
      · exact Action.bind_of_ok hlook _
      · cases hj
        cases ho.symm.trans hq
        exact hk

/-- A native function without code is handed to and fro, however deep that may go. -/
theorem callWithin_of_no_target {args : List Ref} (ho : w.heap.get? i = some o)
    (hu : o.loan ≠ .exclusive) (hp : o.payload = .nativeFunction none) (n : Nat) :
    callWithin hooks n (some i) args w = .error .unfinished w := by
  induction n with
  | zero =>
    obtain ⟨l, hpeek⟩ := peek_eq_ok ho hu
    have hdone : (discard (peek (some i)) : Act Unit) w = .ok () w := by
      simp only [discard, Functor.discard, Functor.mapConst, EStateM.map, Function.comp, hpeek]
    exact Action.bind_of_ok hdone _
  | succ n ih =>
    rw [callWithin_succ, serve_of_not_function, call_of_no_target _ _ _ _ ho hu hp]
    · exact ih
    · intro j q hj hq _ hk
      cases hj
      cases ho.symm.trans hq
      rw [Object.kind, hp] at hk
      cases hk

/-- There is nothing to call behind the null reference. -/
theorem callWithin_none (n : Nat) (args : List Ref) :
    callWithin hooks n none args = Action.abort .nullReference := by
  cases n <;> rfl

section Congruence

variable {caller caller' : Evaluator Memory}

theorem mapElements_congr {f : Ref}
    (h : ∀ element, caller.run f [some element] = caller'.run f [some element])
    (it out : Ref) (count : Nat) :
    mapElements hooks caller f it out count = mapElements hooks caller' f it out count := by
  induction count with
  | zero => rfl
  | succ count ih => simp only [mapElements, h, ih]

/-- Native code that calls on hands over its arguments but for the first, or, if it got two
    at least, one element at a time. -/
theorem natives_congr {args : List Ref}
    (htail : caller.run (args[0]?).join args.tail = caller'.run (args[0]?).join args.tail)
    (helement : 2 ≤ args.length → ∀ element, caller.run (args[0]?).join [some element] =
      caller'.run (args[0]?).join [some element]) (code : NativeId) :
    natives hooks code caller args = natives hooks code caller' args := by
  unfold natives
  cases HostFunction.ofName? code.name with
  | none => rfl
  | some g =>
    cases g with
    | callFirst => exact htail
    | map =>
      by_cases hlen : 2 ≤ args.length
      · simp only [HostFunction.run, mapElements_congr (helement hlen)]
      · -- without a second argument there is nothing to go through
        have hnone : (args[1]?).join = none := by
          rw [List.getElem?_eq_none (by omega)]
          rfl
        funext w
        have hrefused : Ref.iterate hooks none w = .error .nullReference w := rfl
        simp only [HostFunction.run, hnone]
        exact (Action.bind_of_error hrefused _).trans (Action.bind_of_error hrefused _).symm
    | _ => rfl

end Congruence

/-- **The depth never shows.** As deep as there are arguments is deep enough, whatever is
    called. -/
theorem serve_callWithin {args : List Ref} (h : args.length ≤ n) (f : Ref) :
    Evaluator.serve hooks (natives hooks) interpretLent ⟨callWithin hooks n⟩ f args =
      Evaluator.serve hooks (natives hooks) interpretLent (executor hooks) f args := by
  induction hlen : args.length using Nat.strongRecOn generalizing args f n with
  | _ length ih =>
    subst hlen
    -- calls with fewer arguments are served alike at any depth that is enough for them
    have hfewer : ∀ {m : Nat} {rest : List Ref} (g : Ref), rest.length < args.length →
        rest.length ≤ m → callWithin hooks (m + 1) g rest = (executor hooks).run g rest := by
      intro m rest g hshort hm
      rw [callWithin_succ, ih rest.length hshort hm g rfl,
        ← ih rest.length hshort (Nat.le_refl _) g rfl, ← callWithin_succ]
      rfl
    funext w
    refine serve_congr (natives_congr ?_ fun htwo element => ?_) fun i o hf ho hu hp => ?_
    · cases args with
      | nil => exact (callWithin_none n []).trans (callWithin_none 1 []).symm
      | cons a rest =>
        obtain ⟨m, rfl⟩ := Nat.exists_eq_add_of_le' (Nat.zero_lt_of_lt h)
        exact hfewer _ (Nat.lt_succ_self _) (Nat.le_of_succ_le_succ h)
    · obtain ⟨m, rfl⟩ := Nat.exists_eq_add_of_le' (show 1 ≤ n by omega)
      exact hfewer _ htwo (by simp only [List.length_singleton]; omega)
    · subst hf
      exact (callWithin_of_no_target ho hu hp n).trans (callWithin_of_no_target ho hu hp _).symm

/-- The evaluator of scripts serves calls. -/
theorem executor_serves (f : Ref) (args : List Ref) :
    (executor hooks).run f args =
      (executor hooks).serve hooks (natives hooks) interpretLent f args :=
  (callWithin_succ args.length f args).trans (serve_callWithin (Nat.le_refl _) f)

end Script

/-! ## Agreement -/

/-- **Calls and evaluators agree.** Let an evaluator serve a call: it runs functions itself,
    in any way, and hands on all else with the same arguments and nothing lent. Then to call
    and to ask the evaluator come to the same, in effect and in outcome. A native function
    is entered once, with the arguments and the evaluator, in the very world of the call,
    and what comes of it is what comes of the call. A function goes to the evaluator, once,
    whatever native code there is, and so does a native function without code. Anything else
    that can be looked at is a failure, which names its kind, and neither evaluator nor
    native code has a part in it; what cannot be looked at is left alone. Without an
    evaluator nothing is lent and nothing is called. -/
theorem calls_agree (hooks : Hooks σ) (natives : Natives σ)
    {interpret : Ref → List Ref → Action σ Outcome} {evaluator : Evaluator σ}
    (hserves : evaluator.run f args w =
      evaluator.serve hooks natives interpret f args w) :
    Ref.call hooks natives (some evaluator) f args w = evaluator.run f args w ∧
    (∀ i o, f = some i → w.heap.get? i = some o → o.loan ≠ .exclusive →
      (∀ code, o.payload = .nativeFunction (some code) →
        Ref.call hooks natives (some evaluator) f args w = natives code evaluator args w) ∧
      (o.kind = .function →
        Ref.call hooks natives (some evaluator) f args w = interpret f args w) ∧
      (o.kind = .function ∨ o.payload = .nativeFunction none → ∀ natives' evaluator',
        Ref.call hooks natives' (some evaluator') f args w = evaluator'.run f args w) ∧
      (o.kind.canBeCalled = false → ∀ cause, cause = Failure.notCallable o.kind →
        (∀ natives' evaluator', Ref.call hooks natives' (some evaluator') f args w =
          withRead f (fun _ _ => fail hooks cause) w) ∧
        (Ref.call hooks natives (some evaluator) f args).Arrives w
          (fun outcome _ => outcome = .failure cause) (fun _ => ¬hooks.Returns) ∧
        cause.kind? = some .notCallable ∧
        cause.message = Bytes.quoted o.kind.name ++ Bytes.ofString " object is not callable")) ∧
    (f.bind w.heap.get? = none → ∀ natives' evaluator',
      Ref.call hooks natives' (some evaluator') f args w = .error .nullReference w) ∧
    (∀ i o, f = some i → w.heap.get? i = some o → o.loan = .exclusive → ∀ natives' evaluator',
      Ref.call hooks natives' (some evaluator') f args w = .error .exclusivelyLent w) ∧
    ∀ g args' v, Ref.call hooks natives none g args' v = .error .noEvaluator v := by
  refine ⟨?_, ?_, ?_, ?_, fun _ _ _ => rfl⟩
  · by_cases hk : ∃ i o, f = some i ∧ w.heap.get? i = some o ∧ o.loan ≠ .exclusive ∧
        o.kind = .function
    · obtain ⟨i, o, rfl, ho, hu, hk⟩ := hk
      exact call_of_function _ _ _ _ ho hu hk
    · rw [hserves, serve_of_not_function fun i o hf ho hu h => hk ⟨i, o, hf, ho, hu, h⟩]
  · rintro i o rfl ho hu
    refine ⟨fun code hp => call_of_native _ _ _ _ ho hu hp, fun hk => ?_, ?_, ?_⟩
    · rw [call_of_function _ _ _ _ ho hu hk, hserves, serve_of_function ho hu hk]
    · exact fun hp natives' evaluator' => call_of_evaluated _ _ _ _ ho hu hp
    · rintro hk cause rfl
      have hcall := fun natives' evaluator' =>
        call_of_uncallable hooks natives' evaluator' args ho hk
      refine ⟨hcall, ?_, rfl, rfl⟩
      refine .of_eq (.withRead ho hu fun l _ => ?_) (hcall natives evaluator)
      exact .fail_or_throws hooks _ _
  · exact fun hf natives' evaluator' => call_of_dead _ _ _ _ hf
  · rintro i o rfl ho hu natives' evaluator'
    exact call_of_written _ _ _ _ ho hu

/-- An engine with two native functions, of which one marks its first argument and the other
    calls its first argument with the rest, and an integer. -/
def marking : World Script.Memory :=
  (((World.initial {}).added
    (Payload.nativeFunction (some ⟨Script.HostFunction.touch.name⟩)).newborn).added
      (Payload.nativeFunction (some ⟨Script.HostFunction.callFirst.name⟩)).newborn).added
        (Payload.integer 7).newborn

/-- Native code that calls on has a mark put on the very function that it is run as. -/
theorem calls_agree_marking :
    let touch : ObjId := ⟨Heap.initial.size⟩
    let callFirst : ObjId := ⟨Heap.initial.size + 1⟩
    let seven : ObjId := ⟨Heap.initial.size + 2⟩
    let args : List Ref := [some touch, some callFirst, some seven]
    let evaluator := Script.executor {}
    Ref.call {} (Script.natives {}) (some evaluator) (some callFirst) args marking =
        evaluator.run (some callFirst) args marking ∧
      ∃ o w', evaluator.run (some callFirst) args marking = .ok (.success noneId) w' ∧
        w'.heap.get? callFirst = some o ∧ o.loan = .free ∧
        o.attributes.find? (.ofString "touched") = some seven := by
  intro touch callFirst seven args evaluator
  have hserves : ∀ g args', evaluator.run g args' marking =
      evaluator.serve {} (Script.natives {}) Script.interpretLent g args' marking :=
    fun g args' => congrFun (Script.executor_serves g args') marking
  obtain ⟨houter, hcallee, -⟩ := calls_agree {} (Script.natives {}) (hserves (some callFirst) args)
  obtain ⟨hinner, hcallee', -⟩ := calls_agree {} (Script.natives {})
    (hserves (some touch) [some callFirst, some seven])
  have hfirst := (hcallee callFirst _ rfl rfl nofun).1 _ rfl
  have hsecond := (hcallee' touch _ rfl rfl nofun).1 _ rfl
  have hnested : Script.natives {} ⟨Script.HostFunction.callFirst.name⟩ evaluator args marking =
      evaluator.run (some touch) [some callFirst, some seven] marking := rfl
  refine ⟨houter, ?_⟩
  rw [← houter, hfirst, hnested, ← hinner, hsecond]
  exact ⟨_, _, rfl, rfl, rfl, rfl⟩

end ValueEngine

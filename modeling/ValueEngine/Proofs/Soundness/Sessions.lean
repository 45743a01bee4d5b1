/-
  Value engine — sessions stay sound.

  Whatever a script does, between two of its steps the heap is sound, and what registers
  and guards hold is there. So it is within a step, however the step ends; reclaiming
  takes away nothing that a session refers to.

  * `Session.Sound`: such sessions.
  * `Session.Keeps`: actions of a step that lead to one.
  * `perform_keeps`: every step does.
  * `Session.Reached`: the sessions that scripts come to; all are sound (`Reached.sound`).
  * `Reached.runStep`, `Reached.runAll`: they stay so, repetitions included.
-/
import ValueEngine.Proofs.Life.Collection
import ValueEngine.Proofs.Soundness.Guards
import ValueEngine.Proofs.Soundness.Scripts
import ValueEngine.Script.Session

namespace ValueEngine.Script

variable {α β : Type} {s : Session} {w w' : World Memory} {scope : Scope}

/-! ## Parts of steps -/

theorem ofExcept_secures (value : Except Abort α) :
    Secures .lenient (Action.ofExcept value : Act α) w fun _ => [] := by
  cases value with
  | ok a => exact .pure_nil a
  | error e => exact .abort trivial e

theorem Operation.run_secures {hooks : Hooks Memory} (hh : hooks.Secure .lenient)
    (hs : scope.Admitted w.heap) (operation : Operation) :
    Secures .lenient (operation.run hooks scope) w Outcome.refs := by
  have hadmits : ∀ {r : Ref} {w : World Memory}, (∀ i ∈ r.toList, w.heap.Live i) →
      w.heap.Admits True r := Heap.admits_true_iff.2
  cases operation with
  | binary verb a b =>
    refine (a.eval_secures w hs).bind fun a v hv ha => ?_
    refine (b.eval_secures v (hs.follows hv)).bind fun b u hu hb => ?_
    exact binary_secures hh (.inl trivial) (hu.admits (hadmits ha)) (hadmits hb)
  | unary verb a =>
    exact (a.eval_secures w hs).bind fun a v _ ha => unary_secures hh (.inl trivial) (hadmits ha)
  | store a key value =>
    refine (a.eval_secures w hs).bind fun a v hv _ => ?_
    refine (key.eval_secures v (hs.follows hv)).bind fun key u hu _ => ?_
    exact (value.eval_secures u (hs.follows (hv.trans hu))).bind fun value t _ hvalue =>
      store_secures hh trivial (hadmits hvalue)
  | readAttribute a name =>
    exact (a.eval_secures w hs).bind fun a v _ ha => readAttribute_secures hh (hadmits ha) name
  | unbindAttribute a name =>
    exact (a.eval_secures w hs).bind fun a v _ _ => unbindAttribute_secures hh trivial a name
  | operator a b code =>
    refine (a.eval_secures w hs).bind fun a v hv ha => ?_
    refine (b.eval_secures v (hs.follows hv)).bind fun b u hu hb => ?_
    unfold Operator.applyCode
    split
    · exact apply_secures hh _ (hu.admits (hadmits ha)) (hadmits hb)
    · exact .abort trivial _
  | evaluate f args =>
    refine (f.eval_secures w hs).bind fun f v hv hf => ?_
    refine (evalAll_secures args v (hs.follows hv)).bind fun args u hu hargs => ?_
    refine evaluator_secure hh args f args u (hu.admits (hadmits hf)) fun r hr => ?_
    exact hadmits fun i hi => hargs i (List.mem_filterMap.2 ⟨r, hr, Option.mem_toList.1 hi⟩)
  | fail payload code message =>
    exact (payload.eval_secures w hs).bind fun payload v _ hp =>
      fail_secures_of_live hh fun i hi => hp i (Option.mem_toList.2 hi)

theorem showOutcome_secures (scope : Scope) : ∀ {outcome : Outcome},
    (∀ i ∈ outcome.refs, w.heap.Live i) →
      Secures .lenient (showOutcome scope outcome) w fun shown => shown.2.toList
  | .success value, ho => (describe_secures scope (some value)).bind_nil fun _ _ hv =>
      .pure fun i hi => hv.live (ho i hi)
  | .failure cause, _ =>
    (describeFailure_secures scope cause).bind_nil fun _ _ _ => .pure_of_nil rfl
  | .exhausted, _ => .pure_of_nil rfl

theorem describeAll_secures (scope : Scope) (f : α → Ref) (g : α → Option Description → β)
    (xs : List α) :
    Secures .lenient (xs.mapM fun a => return g a (← describe scope (f a)) : Act (List β)) w
      fun _ => [] :=
  .mapM_nil fun a _ _ _ => (describe_secures scope (f a)).bind_nil fun _ _ _ => .pure_nil _

theorem inspect_secures (scope : Scope) (o : Object) :
    Secures .lenient (inspect scope o) w fun _ => [] := by
  refine (describe_secures scope o.type).bind_nil fun type v _ => ?_
  have hattributes := describeAll_secures scope (w := v) (fun e : Bytes × ObjId => some e.2)
    (fun e d => (e.1, d)) o.attributes
  exact hattributes.bind_nil fun _ _ _ => .pure_nil _

theorem Question.ask_secures (scope : Scope) (question : Question) (o : Object) :
    Secures .lenient (question.ask scope o) w fun _ => [] := by
  cases question with
  | list | tuple =>
    refine (ofExcept_secures _).bind_nil fun elements _ _ => .bind_nil ?_ fun _ _ _ => .pure_nil _
    exact .mapM_nil fun r _ _ _ => describe_secures scope r
  | dict =>
    exact (ofExcept_secures _).bind_nil fun entries _ _ =>
      (describeAll_secures scope Prod.snd (fun e d => (e.1, d)) entries).bind_nil
        fun _ _ _ => .pure_nil _
  | target =>
    exact (ofExcept_secures _).bind_nil fun cursor _ _ =>
      (describe_secures scope cursor.target).bind_nil fun _ _ _ => .pure_nil _
  | _ => exact (ofExcept_secures _).bind_nil fun _ _ _ => .pure_nil _

/-! ## Guards -/

theorem GuardAction.run_secures (hs : scope.Admitted w.heap) (g : Guard) (action : GuardAction) :
    Secures .lenient (action.run scope g) w fun _ => [] := by
  cases action with
  | text =>
    refine .object_bind fun i o ho _ => ?_
    exact (textOf_secures fun _ => Heap.contents_of_get? ho).bind_nil fun _ _ _ => .pure_nil _
  | inspect =>
    exact .object_bind fun _ o _ _ => (inspect_secures scope o).bind_nil fun _ _ _ => .pure_nil _
  | ask question =>
    exact .object_bind fun _ o _ _ =>
      (question.ask_secures scope o).bind_nil fun _ _ _ => .pure_nil _
  | ownAttribute name =>
    refine .bind_nil (.object_bind fun _ _ _ _ => .pure_nil _) fun r _ _ => ?_
    exact (describe_secures scope r).bind_nil fun _ _ _ => .pure_nil _
  | push value =>
    refine (value.eval_secures w hs).bind fun r v _ hr => ?_
    exact (push_secures g (Heap.admits_true_iff.2 hr)).bind_nil fun _ _ _ => .pure_nil _
  | truncate length => exact (truncate_secures g length).bind_nil fun _ _ _ => .pure_nil _
  | insertEntry value key =>
    refine (value.eval_secures w hs).bind fun r v _ hr => ?_
    exact (insertEntry_secures g key (Heap.admits_true_iff.2 hr)).bind_nil fun _ _ _ => .pure_nil _
  | eraseEntry key =>
    refine (eraseEntry_secures g key).bind_nil fun _ _ _ => ?_
    split <;> exact .pure_nil _
  | bindAttribute value name =>
    refine (value.eval_secures w hs).bind fun r v _ hr => ?_
    exact (bindThrough_secures g name (Heap.admits_true_iff.2 hr)).bind_nil
      fun _ _ _ => .pure_nil _
  | unbindAttribute name => exact (unbindThrough_secures g name).bind_nil fun _ _ _ => .pure_nil _

/-! ## Answers -/

theorem OutcomeForm.eval_secures (hs : scope.Admitted w.heap) (form : OutcomeForm) :
    Secures .lenient (form.eval scope) w Outcome.refs := by
  cases form with
  | success value =>
    exact (value.eval_secures w hs).bind fun r v _ hr => .succeed (Heap.admits_true_iff.2 hr)
  | _ => exact .pure_of_nil rfl

theorem viewOutcome_secures (scope : Scope) (outcome : Outcome) :
    Secures .lenient (viewOutcome scope outcome) w fun _ => [] := by
  refine .bind_nil (.attempt_nil ?_) fun _ _ _ => ?_
  · exact (ofExcept_secures _).bind_nil fun _ _ _ => describe_secures scope _
  refine .bind_nil (.attempt_nil ?_) fun _ _ _ => .pure_nil _
  exact (ofExcept_secures _).bind_nil fun _ _ _ => describeFailure_secures scope _

theorem showVerdict_secures (scope : Scope) (verdict : Verdict) :
    Secures .lenient (showVerdict scope verdict) w fun _ => [] := by
  cases verdict with
  | failed cause =>
    exact (describeFailure_secures scope cause).bind_nil fun _ _ _ => .pure_nil _
  | _ => exact .pure_nil _

theorem showOrder_secures (scope : Scope) (order : Except Failure Ordering) :
    Secures .lenient (showOrder scope order) w fun _ => [] := by
  cases order with
  | error cause =>
    exact (describeFailure_secures scope cause).bind_nil fun _ _ _ => .pure_nil _
  | ok order => exact .pure_nil _

/-! ## Sound sessions -/

namespace Session

/-- A session with a sound heap, in which there is all that registers and guards hold. -/
structure Sound (s : Session) : Prop where
  world : s.world.Sound .lenient
  scope : s.scope.Admitted s.world.heap
  guards : ∀ g ∈ s.guards.values, ∀ i, g.held = some i → s.world.heap.Live i

/-- An action of a step that leads from a sound session to a sound one in which no object
    is lost, however it ends. -/
def Keeps (s : Session) (x : Act (Reply × (Session → Session))) (w : World Memory) : Prop :=
  Sound { s with world := w } →
    (∀ reply change w', x w = .ok (reply, change) w' →
      (change { s with world := w' }).Sound ∧ Follows .lenient w w' ∧
        (change { s with world := w' }).world = w') ∧
    ∀ e w', x w = .error e w' → Sound { s with world := w' } ∧ Follows .lenient w w'

theorem Sound.follows (hs : Sound { s with world := w }) (hw : w'.Sound .lenient)
    (h : Follows .lenient w w') : Sound { s with world := w' } where
  world := hw
  scope r hr := h.admits (hs.scope r hr)
  guards g hg i hi := h.live (hs.guards g hg i hi)

theorem guard_live (hs : s.Sound) (name : Bytes) {i : ObjId} (hi : (s.guard name).held = some i) :
    s.world.heap.Live i := by
  unfold guard at hi
  cases hfind : s.guards.find? name with
  | none =>
    rw [hfind] at hi
    cases hi
  | some g =>
    rw [hfind] at hi
    exact hs.guards g (Table.mem_values_of_find? hfind) i hi

namespace Keeps

theorem bind {refs : α → List ObjId} {x : Act α} {f : α → Act (Reply × (Session → Session))}
    (hx : Sound { s with world := w } → Secures .lenient x w refs)
    (hf : ∀ a w', Follows .lenient w w' → (∀ i ∈ refs a, w'.heap.Live i) → Keeps s (f a) w') :
    Keeps s (x >>= f) w := by
  intro hs
  obtain ⟨hok, herror⟩ := hx hs hs.world
  cases h : x w with
  | ok a v =>
    obtain ⟨hv, hfollows, hlive⟩ := hok a v h
    rw [Action.bind_of_ok h]
    obtain ⟨hok', herror'⟩ := hf a v hfollows hlive (hs.follows hv hfollows)
    constructor
    · intro reply change w' hx'
      obtain ⟨hs', hfollows', hworld⟩ := hok' reply change w' hx'
      exact ⟨hs', hfollows.trans hfollows', hworld⟩
    · intro e w' hx'
      obtain ⟨hs', hfollows'⟩ := herror' e w' hx'
      exact ⟨hs', hfollows.trans hfollows'⟩
  | error e v =>
    obtain ⟨-, hv, hfollows⟩ := herror e v h
    rw [Action.bind_of_error h]
    refine ⟨(fun _ _ _ h => by cases h), fun e' w' he => ?_⟩
    cases he
    exact ⟨hs.follows hv hfollows, hfollows⟩

theorem pure {reply : Reply} {change : Session → Session}
    (hw : (change { s with world := w }).world = w)
    (h : Sound { s with world := w } → (change { s with world := w }).Sound) :
    Keeps s (Pure.pure (reply, change)) w := by
  refine fun hs => ⟨fun _ _ _ hr => ?_, fun _ _ h => by cases h⟩
  cases hr
  exact ⟨h hs, .refl w, hw⟩

/-- What leaves registers and guards as they are. -/
theorem reply (reply : Reply) : Keeps s (Pure.pure (reply, id)) w := pure rfl id

theorem evaluated {operand : Operand} {f : Ref → Act (Reply × (Session → Session))}
    (hf : ∀ r w', Follows .lenient w w' → w'.heap.Admits True r → Keeps s (f r) w') :
    Keeps s (operand.eval s.scope >>= f) w :=
  .bind (fun hs => operand.eval_secures w hs.scope) fun r w' hw' hr =>
    hf r w' hw' (Heap.admits_true_iff.2 hr)

theorem answered {x : Act α} (f : α → Reply)
    (hx : Secures .lenient x w fun _ => []) : Keeps s (do return (f (← x), id)) w :=
  .bind (fun _ => hx) fun _ _ _ _ => .reply _

end Keeps

/-! ### Changes of a session -/

theorem Sound.bind (hs : s.Sound) (register : Bytes) {r : Ref}
    (hr : s.world.heap.Admits True r) : (s.bind register r).Sound where
  world := hs.world
  scope r' hr' := (Table.mem_values_of_insert hr').elim (fun e => e ▸ hr) (hs.scope r')
  guards := hs.guards

theorem world_keepValue (s : Session) (register : Option Bytes) (r : Ref) :
    (s.keepValue register r).world = s.world := by
  unfold keepValue
  split <;> rfl

theorem Sound.keepValue (hs : s.Sound) (register : Option Bytes) {r : Ref}
    (hr : s.world.heap.Admits True r) : (s.keepValue register r).Sound := by
  cases register with
  | none => exact hs
  | some register =>
    cases r with
    | none => exact hs
    | some i => exact hs.bind register hr

theorem mem_values_of_foldl_erase {β : Type} {v : β} (names : List Bytes) {t : Table β}
    (h : v ∈ (names.foldl (fun t name => t.erase name) t).values) : v ∈ t.values := by
  induction names generalizing t with
  | nil => exact h
  | cons name names ih => exact Table.mem_values_of_erase (ih h)

theorem Sound.unbind (hs : s.Sound) (registers : List Bytes) : (s.unbind registers).Sound where
  world := hs.world
  scope r hr := hs.scope r (mem_values_of_foldl_erase registers hr)
  guards := hs.guards

theorem Sound.keepGuard (hs : s.Sound) (name : Bytes) {g : Guard}
    (hg : ∀ i, g.held = some i → s.world.heap.Live i) : (s.keepGuard name g).Sound where
  world := hs.world
  scope := hs.scope
  guards g' hg' := (Table.mem_values_of_insert hg').elim (fun e => e ▸ hg) (hs.guards g')

theorem Sound.dropGuard (hs : s.Sound) (name : Bytes) : (s.dropGuard name).Sound where
  world := hs.world
  scope := hs.scope
  guards g hg := hs.guards g (Table.mem_values_of_erase hg)

theorem Sound.moveGuard (hs : s.Sound) (name target : Bytes) : (s.moveGuard name target).Sound :=
  (hs.keepGuard name fun _ hi => by cases hi).keepGuard target fun _ hi => guard_live hs name hi

end Session

/-! ## Steps -/

open Session in
/-- **Every step leads from a sound session to a sound one**, however it ends. -/
theorem perform_keeps (s : Session) (step : Step) (w : World Memory) :
    s.Keeps (perform s step) w := by
  have hh : s.hooks.Secure .lenient := hooks_secure _ _ _
  cases step with
  | operate operation register =>
    refine .bind (fun hs => Operation.run_secures hh hs.scope operation) fun outcome v _ ho => ?_
    refine .bind (fun _ => showOutcome_secures s.scope ho) fun shown u _ hshown => ?_
    refine .pure (world_keepValue ..) fun hs => ?_
    exact hs.keepValue register (Heap.admits_true_iff.2 hshown)
  | call f args withEvaluator register =>
    refine .evaluated fun f v _ hf => ?_
    refine .bind (fun hs => evalAll_secures args v hs.scope) fun args u hu hargs => ?_
    have hadmits : ∀ r ∈ args, u.heap.Admits True r := fun r hr =>
      Heap.admits_true_iff.2 fun i hi =>
        hargs i (List.mem_filterMap.2 ⟨r, hr, Option.mem_toList.1 hi⟩)
    let env : Environment Memory :=
      ⟨s.hooks, natives s.hooks, if withEvaluator then some (evaluator s.hooks args) else none⟩
    have hevaluator : ∀ e, env.evaluator = some e → EvaluatorSecure e := by
      intro e he
      cases withEvaluator <;> cases he
      exact evaluator_secure hh args
    have henv : env.Secure .lenient :=
      ⟨hh, fun e he code args w hargs => natives_secure hh (hevaluator e he) code hargs, hevaluator⟩
    have hcall : Secures .lenient (Ref.call env.hooks env.natives env.evaluator f args) u
        Outcome.refs := call_secures henv trivial (hu.admits hf) hadmits
    refine .bind (fun _ => hcall) fun outcome t _ ho => ?_
    refine .bind (fun _ => showOutcome_secures s.scope ho) fun shown u _ hshown => ?_
    refine .bind (fun _ => .get) fun _ _ hw' _ => .pure (world_keepValue ..) fun hs => ?_
    exact hs.keepValue register (hw'.admits (Heap.admits_true_iff.2 hshown))
  | bind value register =>
    refine .evaluated fun r v _ hr => ?_
    exact .bind (fun _ => describe_secures s.scope r) fun _ _ hu _ => .pure rfl fun hs =>
      hs.bind register (hu.admits hr)
  | unbind registers => exact .pure rfl fun hs => hs.unbind registers
  | program name bytes =>
    exact .bind (fun _ => newProgram_secures bytes) fun _ _ _ _ => .pure rfl fun hs =>
      ⟨hs.world, hs.scope, hs.guards⟩
  | text a => exact .evaluated fun r _ _ hr => .answered _ (text_secures hr)
  | describe a => exact .evaluated fun r _ _ _ => .answered _ (describe_secures s.scope r)
  | truth a => exact .evaluated fun r _ _ hr => .answered _ (truth_secures hr)
  | nullness a => exact .evaluated fun _ _ _ _ => .reply _
  | same a b => exact .evaluated fun _ _ _ _ => .evaluated fun _ _ _ _ => .reply _
  | referenceCount name => exact .bind (fun _ => .heap) fun _ _ _ _ => .reply _
  | inspect a =>
    exact .evaluated fun r _ _ _ => .answered _ (.withRead (.inl trivial) fun _ o _ _ _ _ _ =>
      inspect_secures s.scope o)
  | ask a question =>
    exact .evaluated fun r _ _ _ => .answered _ (.withRead (.inl trivial) fun _ o _ _ _ _ _ =>
      question.ask_secures s.scope o)
  | sameProgram a b =>
    refine .evaluated fun a _ _ _ => .evaluated fun b _ _ _ => .answered _ ?_
    refine .withRead (.inl trivial) fun _ x _ _ _ _ _ => .withRead (.inl trivial)
      fun _ y _ _ _ _ _ => ?_
    exact (ofExcept_secures _).bind_nil fun _ _ _ => (ofExcept_secures _).bind_nil fun _ _ _ =>
      .pure_nil _
  | knows a name => exact .evaluated fun r _ _ hr => .answered _ (knows_secures hr name)
  | bindAttribute a value name =>
    refine .evaluated fun a _ _ _ => .evaluated fun value _ _ hvalue => ?_
    exact .bind (fun _ => bindAttribute_secures trivial a name hvalue) fun _ _ _ _ => .reply _
  | configure changes =>
    refine .bind (fun _ => .modify rfl) fun _ _ _ _ => .bind (fun _ => .settings) fun _ _ _ _ => ?_
    exact .pure rfl fun hs => ⟨hs.world, hs.scope, hs.guards⟩
  | trace level message => exact .bind (fun _ => .trace level message) fun _ _ _ _ => .reply _
  | failure payload code message =>
    exact .evaluated fun r _ _ _ => .answered _ (describeFailure_secures s.scope _)
  | outcome form =>
    exact .bind (fun hs => form.eval_secures hs.scope) fun outcome _ _ _ =>
      .answered _ (viewOutcome_secures s.scope outcome)
  | symbol code => exact .reply _
  | kind tag => exact .reply _
  | judge a b =>
    refine .evaluated fun a _ _ _ => .evaluated fun b _ _ _ => .answered _ ?_
    refine .withRead (.inl trivial) fun i x _ _ _ _ _ => .withRead (.inl trivial)
      fun j y _ _ _ _ _ => ?_
    exact (judge_secures hh (fun h => absurd trivial h) fun h => absurd trivial h).nil.bind_nil
      fun verdict _ _ => showVerdict_secures s.scope verdict
  | order a b =>
    refine .evaluated fun a _ _ _ => .evaluated fun b _ _ _ => .answered _ ?_
    refine .withRead (.inl trivial) fun i x _ _ _ _ _ => .withRead (.inl trivial)
      fun j y _ _ _ _ _ => ?_
    exact (orderOf_secures hh x y).nil.bind_nil fun order _ _ => showOrder_secures s.scope order
  | integer function x y => exact .answered _ (ofExcept_secures _)
  | guard access a name =>
    refine .evaluated fun r _ _ _ => .bind (fun _ => guard_secures access r) fun g _ _ hg => ?_
    refine .bind (fun _ => release_secures _) fun _ _ hw' _ => .pure rfl fun hs => ?_
    exact hs.keepGuard name fun i hi => hw'.live (hg i (Option.mem_toList.2 hi))
  | release name =>
    exact .bind (fun _ => release_secures _) fun _ _ _ _ => .pure rfl fun hs => hs.dropGuard name
  | moveGuard name target =>
    have hmove : ∀ w, s.Keeps (pure (.nothing, Session.moveGuard name target)) w := fun w =>
      .pure rfl fun hs => hs.moveGuard name target
    simp only [perform]
    split
    · exact .bind (fun _ => release_secures _) fun _ w' _ _ => hmove w'
    · exact hmove w
  | through name action =>
    exact .bind (fun hs => GuardAction.run_secures hs.scope _ action) fun _ _ _ _ => .reply _
  | repeated times body => exact .reply _

/-! ## Runs -/

namespace Session

theorem canonicalIds_subset_roots (s : Session) : ∀ i ∈ canonicalIds, i ∈ s.roots :=
  fun _ hi => List.mem_append_left _ (List.mem_append_left _ hi)

theorem mem_roots_of_register {i : ObjId} (hi : some i ∈ s.scope.registers.values) :
    i ∈ s.roots :=
  List.mem_append_left _ (List.mem_append_right _ (List.mem_filterMap.2 ⟨_, hi, rfl⟩))

theorem mem_roots_of_guard {g : Guard} {i : ObjId} (hg : g ∈ s.guards.values)
    (hi : g.held = some i) : i ∈ s.roots :=
  List.mem_append_right _ (List.mem_filterMap.2 ⟨g, hg, hi⟩)

theorem Sound.cleared (hs : s.Sound) : s.cleared.Sound :=
  ⟨hs.world.of_heap_eq rfl, hs.scope, hs.guards⟩

/-- Reclaiming takes away nothing that a session refers to. -/
theorem Sound.collected (hs : s.Sound) : s.collected.Sound := by
  have hkept : ∀ i, i ∈ s.roots → s.world.heap.Live i → s.collected.world.heap.Live i :=
    fun i hroot hi => Heap.live_collect_iff.2 ⟨hi, i, .inl hroot, .refl⟩
  refine ⟨⟨hs.world.heap.collect s.canonicalIds_subset_roots, fun h => absurd trivial h⟩,
    fun r hr => ?_, fun g hg i hi => hkept i (mem_roots_of_guard hg hi) (hs.guards g hg i hi)⟩
  cases r with
  | none => trivial
  | some i => exact hkept i (mem_roots_of_register hr) (hs.scope _ hr)

/-- The session that a step leaves, before what nothing refers to is reclaimed. -/
def performed (s : Session) (step : Step) : Session :=
  match perform s step s.world with
  | .ok (_, change) world => change { s with world := world }
  | .error _ world => { s with world := world }

theorem runSingle_eq_collected (s : Session) (step : Step) :
    (s.runSingle step).2 = (s.performed step).collected := by
  cases h : perform s step s.world with
  | ok a w =>
    simp only [runSingle, performed, h]
    rfl
  | error e w =>
    simp only [runSingle, performed, h]
    rfl

/-- A step itself takes no object away. -/
theorem Sound.performed (hs : s.Sound) (step : Step) :
    (s.performed step).Sound ∧ Follows .lenient s.world (s.performed step).world := by
  obtain ⟨hok, herror⟩ := perform_keeps s step s.world hs
  unfold Session.performed
  split
  · rename_i h
    obtain ⟨hs', hfollows, hworld⟩ := hok _ _ _ h
    exact ⟨hs', hworld.symm ▸ hfollows⟩
  · rename_i h
    exact herror _ _ h

theorem Sound.runSingle (hs : s.Sound) (step : Step) : (s.runSingle step).2.Sound := by
  rw [runSingle_eq_collected]
  exact (hs.performed step).1.collected

theorem sound_initial : initial.Sound where
  world := ⟨.initial, fun h => absurd trivial h⟩
  scope := nofun
  guards := nofun

/-- The sessions that a script comes to, after each of its steps. -/
inductive Reached : Session → Prop
  | start : Reached .initial
  | step {s : Session} (hs : Reached s) (step : Step) : Reached (s.cleared.runSingle step).2

theorem Reached.sound (hs : Reached s) : s.Sound := by
  induction hs with
  | start => exact sound_initial
  | step _ step ih => exact ih.cleared.runSingle step

theorem Reached.rounds {round : Session → List Answer × Session}
    (hround : ∀ s, Reached s → Reached (round s).2) (times : Nat) (last : List Answer)
    (hs : Reached s) : Reached (rounds round times last s).2 := by
  induction times generalizing last s with
  | zero => exact hs
  | succ times ih => exact ih _ (hround s hs)

/-- What is not a repetition is a single step. -/
theorem runStep_eq (step : Step) (s : Session) :
    (∃ times body, step = .repeated times body) ∨ runStep step s = s.cleared.runSingle step := by
  cases step with
  | repeated times body => exact .inl ⟨times, body, rfl⟩
  | _ => exact .inr rfl

mutual

/-- A script comes to such a session after a repetition, too. -/
theorem Reached.runStep (one : Step) {s : Session} (hs : Reached s) :
    Reached (runStep one s).2 := by
  rcases runStep_eq one s with ⟨times, body, h⟩ | h
  · have hrounds := hs.rounds (fun _ hs => hs.runAll body) times.toNat []
    rw [h, Script.runStep]
    exact hrounds.step (.repeated times body)
  · rw [h]
    exact hs.step one
termination_by sizeOf one
decreasing_by subst h; decreasing_tactic

/-- A script comes to such a session with each of its steps. -/
theorem Reached.runAll (steps : List Step) {s : Session} (hs : Reached s) :
    Reached (runAll steps s).2 :=
  match steps with
  | [] => hs
  | one :: rest => (hs.runStep one).runAll rest
termination_by sizeOf steps

end

end Session

end ValueEngine.Script

/-
  Value engine — the host code of scripts keeps a world sound.

  The host of a script makes objects with any type and with null parts, and its hooks and
  native functions do all that an engine offers. All of it deals in references that its
  registers hold, that it is given or that it makes.

  * `Scope.Admitted`: names that stand for live objects.
  * `Operand.eval_secures`: operands and the objects made for them.
  * `hooks_secure`: the hooks, for every choice of modes.
  * `natives_secure`, `evaluator_secure`: the native functions and the evaluator.
-/
import ValueEngine.Proofs.Soundness.Operations
import ValueEngine.Script.Hook
import ValueEngine.Script.Native
import ValueEngine.Script.Operand

namespace ValueEngine.Script

variable {α : Type} {w w' : World Memory} {s : Scope} {h : Heap}

/-- Registers hold live objects or null. -/
def Scope.Admitted (s : Scope) (h : Heap) : Prop := ∀ r ∈ s.registers.values, h.Admits True r

theorem Scope.Admitted.follows (hs : s.Admitted w.heap) (hw : Follows .lenient w w') :
    s.Admitted w'.heap := fun r hr => hw.admits (hs r hr)

theorem Heap.admits_true_iff {r : Ref} : h.Admits True r ↔ ∀ i ∈ r.toList, h.Live i := by
  cases r with
  | none => simp [Heap.Admits]
  | some i => simp [Heap.Admits]

/-! ## Memory and descriptions -/

theorem remember_secures (f : Memory → Memory) :
    Secures .lenient (remember f) w fun _ => [] := .modify rfl

theorem newProgram_secures (bytes : Bytes) :
    Secures .lenient (newProgram bytes) w fun _ => [] :=
  Secures.get.bind_nil fun _ _ _ => (remember_secures _).bind_nil fun _ _ _ => .pure_nil _

theorem describe_secures (s : Scope) : ∀ r, Secures .lenient (describe s r) w fun _ => []
  | none => .pure_nil _
  | some i => by
    refine .bind_nil (.attempt_nil ?_) fun _ _ _ => .pure_nil _
    refine .withRead (.inl trivial) fun j o _ _ _ ho _ => ?_
    exact (textOf_secures fun _ => Heap.contents_of_get? ho).bind_nil fun _ _ _ => .pure_nil _

theorem describeFailure_secures (s : Scope) (failure : Failure) :
    Secures .lenient (describeFailure s failure) w fun _ => [] :=
  (describe_secures s failure.payload).bind_nil fun _ _ _ => .pure_nil _

/-! ## Operands -/

theorem resolve_secures (hs : s.Admitted w.heap) (name : Bytes) :
    Secures .lenient (pure (s.resolve name)) w Option.toList := by
  refine fun hw => Secures.pure ?_ hw
  rw [← Heap.admits_true_iff]
  unfold Scope.resolve
  split
  · rename_i e he
    have hcanonical : ∀ e ∈ canonicalNames, e.2 ∈ canonicalIds := by decide
    exact hw.heap.canonical _ (hcanonical e (List.mem_of_find?_eq_some he))
  · cases hfind : s.registers.find? name with
    | none => trivial
    | some r => exact hs r (Table.mem_values_of_find? hfind)

theorem ProgramSource.eval_secures (s : Scope) (source : ProgramSource) :
    Secures .lenient (source.eval s) w fun _ => [] := by
  cases source with
  | null => exact .pure_nil _
  | named name => exact .pure_nil _
  | new content => exact (newProgram_secures content).bind_nil fun _ _ _ => .pure_nil _

/-- A payload of live references fits what is made next. -/
theorem fits_of_live {p : Payload} (hp : ∀ i ∈ p.slots.filterMap id, h.Live i)
    (ho : ∀ entries, p = .dict entries → entries.Ascending) : p.Fits True h ⟨h.size⟩ where
  slots r hr := by
    cases r with
    | none => trivial
    | some i => exact hp i (List.mem_filterMap.2 ⟨_, hr, rfl⟩)
  target cursor t hc ht := by
    subst hc
    refine Heap.Live.lt_size (hp t ?_)
    simp [Payload.slots, ht]
  ordered := ho

/-- Dictionaries are written in any order and made in the order of their keys. -/
theorem Literal.ascending_of_eval {literal : Literal} {entries : Table Ref}
    (h : literal.eval s w = .ok (.dict entries) w') : entries.Ascending := by
  have hbind : ∀ {α : Type} {x : Act α} {f : α → Payload}, (∀ a, f a ≠ .dict entries) →
      (do return f (← x)) w ≠ .ok (.dict entries) w' := by
    intro α x f hf heq
    cases hx : x w with
    | ok a v =>
      rw [Action.bind_of_ok hx] at heq
      injection heq with heq
      exact hf a heq
    | error e v =>
      rw [Action.bind_of_error hx] at heq
      cases heq
  cases literal with
  | dict written =>
    rw [Literal.eval] at h
    cases hx : evalEntries s written w with
    | ok a v =>
      rw [Action.bind_of_ok hx] at h
      cases h
      exact .ofList a
    | error e v =>
      rw [Action.bind_of_error hx] at h
      cases h
  | list _ | tuple _ | iterator _ | code _ | function _ =>
    rw [Literal.eval] at h
    exact absurd h (hbind nofun)
  | _ =>
    rw [Literal.eval] at h
    cases h

mutual

/-- The object that an operand describes is there. -/
theorem Operand.eval_secures (operand : Operand) (w : World Memory) (hs : s.Admitted w.heap) :
    Secures .lenient (operand.eval s) w Option.toList := by
  cases operand with
  | null =>
    rw [Operand.eval]
    exact .pure_of_nil rfl
  | named name =>
    rw [Operand.eval]
    exact resolve_secures hs name
  | fresh literal =>
    rw [Operand.eval]
    refine (literal.eval_secures w hs).bind_run fun payload v hrun _ hp => ?_
    refine (Secures.fresh (fits_of_live hp fun entries he => ?_) (.inl trivial)).bind
      fun _ _ _ hi => .pure hi
    rw [he] at hrun
    exact Literal.ascending_of_eval hrun
  | made literal type =>
    cases literal with
    | none =>
      rw [Operand.eval]
      exact (type.eval_secures w hs).bind fun _ _ _ _ => .abort trivial _
    | some literal =>
      rw [Operand.eval]
      refine (literal.eval_secures w hs).bind_run fun payload v hrun hv hp => ?_
      refine (type.eval_secures v (hs.follows hv)).bind fun t u hu ht => ?_
      refine (Secures.make trivial (Heap.admits_true_iff.2 ht) fun p hpayload => ?_).bind
        fun _ _ _ hi => .pure hi
      cases hpayload
      refine fits_of_live (fun i hi => hu.live (hp i hi)) fun entries he => ?_
      rw [he] at hrun
      exact Literal.ascending_of_eval hrun

theorem Literal.eval_secures (literal : Literal) (w : World Memory) (hs : s.Admitted w.heap) :
    Secures .lenient (literal.eval s) w fun p => p.slots.filterMap id := by
  cases literal with
  | list elements =>
    rw [Literal.eval]
    exact (evalAll_secures elements w hs).bind fun _ _ _ hi => .pure hi
  | tuple elements =>
    rw [Literal.eval]
    exact (evalAll_secures elements w hs).bind fun _ _ _ hi => .pure hi
  | dict entries =>
    rw [Literal.eval]
    refine (evalEntries_secures entries w hs).bind fun evaluated _ _ hi => .pure fun i hmem => ?_
    obtain ⟨r, hr, hri⟩ := List.mem_filterMap.1 hmem
    exact hi i (List.mem_filterMap.2 ⟨r, Table.mem_values_of_ofList hr, hri⟩)
  | iterator target =>
    rw [Literal.eval]
    refine (target.eval_secures w hs).bind fun r _ _ hi => .pure fun i hmem => hi i ?_
    cases r with
    | none => cases hmem
    | some j => exact hmem
  | code program =>
    rw [Literal.eval]
    exact (program.eval_secures s).bind_nil fun _ _ _ => .pure_of_nil rfl
  | function program =>
    rw [Literal.eval]
    exact (program.eval_secures s).bind_nil fun _ _ _ => .pure_of_nil rfl
  | _ =>
    rw [Literal.eval]
    exact .pure_of_nil rfl

theorem evalAll_secures (operands : List Operand) (w : World Memory) (hs : s.Admitted w.heap) :
    Secures .lenient (evalAll s operands) w fun rs => rs.filterMap id := by
  cases operands with
  | nil =>
    rw [evalAll]
    exact .pure_of_nil rfl
  | cons operand rest =>
    rw [evalAll]
    refine (operand.eval_secures w hs).bind fun r v hv hr => ?_
    refine (evalAll_secures rest v (hs.follows hv)).bind fun rs u hu hrs => .pure fun i hi => ?_
    cases r with
    | none => exact hrs i hi
    | some j =>
      rcases List.mem_cons.1 hi with rfl | hi
      · exact hu.live (hr _ List.mem_cons_self)
      · exact hrs i hi

theorem evalEntries_secures (entries : List (Bytes × Operand)) (w : World Memory)
    (hs : s.Admitted w.heap) : Secures .lenient (evalEntries s entries) w fun evaluated =>
      (evaluated.map Prod.snd).filterMap id := by
  cases entries with
  | nil =>
    rw [evalEntries]
    exact .pure_of_nil rfl
  | cons entry rest =>
    obtain ⟨key, operand⟩ := entry
    rw [evalEntries]
    refine (operand.eval_secures w hs).bind fun r v hv hr => ?_
    refine (evalEntries_secures rest v (hs.follows hv)).bind fun rs u hu hrs =>
      .pure fun i hi => ?_
    cases r with
    | none => exact hrs i hi
    | some j =>
      rcases List.mem_cons.1 hi with rfl | hi
      · exact hu.live (hr _ List.mem_cons_self)
      · exact hrs i hi

end

/-! ## Hooks -/

theorem conflict?_secures (r : Ref) : Secures .lenient (conflict? r) w fun _ => [] := by
  refine .bind_nil (.attempt_nil ?_) fun result _ _ => ?_
  · exact .withWrite trivial fun _ _ _ _ _ _ _ => .pure_nil _
  · cases result <;> exact .pure_nil _

theorem lockedRegisters_secures (registers : Table Ref) :
    Secures .lenient (lockedRegisters registers) w fun _ => [] := by
  unfold lockedRegisters
  induction registers generalizing w with
  | nil =>
    rw [List.filterMapM_nil]
    exact .pure_nil _
  | cons e rest ih =>
    rw [List.filterMapM_cons]
    refine .bind_nil ((conflict?_secures e.2).bind_nil fun _ _ _ => .pure_nil _)
      fun locked _ _ => ?_
    cases locked with
    | none => exact ih
    | some locked => exact ih.bind_nil fun _ _ _ => .pure_nil _

theorem recordFailure_secures (s : Scope) (probe : Bool) (failure : Failure) :
    Secures .lenient (recordFailure s probe failure) w fun _ => [] := by
  refine (describeFailure_secures s failure).bind_nil fun report _ _ => ?_
  have hemit : ∀ locked (v : World Memory),
      Secures .lenient (emit (.failure report locked)) v fun _ => [] :=
    fun _ _ => remember_secures _
  dsimp only
  split
  · exact .bind_nil ((lockedRegisters_secures _).map some nofun) fun _ _ _ => hemit _ _
  · exact .bind_nil (.pure_nil _) fun _ _ _ => hemit _ _

theorem FailureMode.hook_secures {mode : FailureMode} {hook : Failure → Act Unit}
    (h : mode.hook s = some hook) (cause : Failure) :
    Secures .lenient (hook cause) w fun _ => [] := by
  cases mode <;> cases h
  · exact recordFailure_secures s false cause
  · exact recordFailure_secures s true cause
  · exact (recordFailure_secures s false cause).bind_nil fun _ _ _ => .abort trivial _

section Serving

variable {hooks : Hooks Memory} (hh : hooks.Secure .lenient) {a b : Ref}
  (ha : w.heap.Admits True a) (hb : w.heap.Admits True b)
include hh ha hb

theorem OfferMode.serve_secures (mode : OfferMode) (op : Operator) {outcome : Outcome}
    (ho : ∀ i ∈ outcome.refs, w.heap.Live i) :
    Secures .lenient (mode.serve hooks op a b outcome) w fun offered => offered.2.refs := by
  have hnew : ∀ {payload : Payload} {w : World Memory} (counts : Bool), payload.slots = [] →
      payload.missingPart? = .none → Secures .lenient
        (do return (counts, ← freshValue payload)) w fun offered => offered.2.refs :=
    fun counts hs hm => (Secures.freshValue_plain hs hm).bind fun _ _ _ hrefs => .pure hrefs
  cases mode with
  | none => exact .pure ho
  | decline => exact .pure ho
  | declineDirty => exact hnew false rfl rfl
  | boolAdd =>
    refine .withRead (.inl trivial) fun _ x v hv _ _ _ => ?_
    refine .withRead (.inl trivial) fun _ y u hu _ _ _ => ?_
    split
    · exact hnew true rfl rfl
    · exact .pure fun i hi => hu.live (hv.live (ho i hi))
  | swapMultiply =>
    refine .bind_nil (.withRead (.inl trivial) fun _ x _ _ _ _ _ =>
      .withRead (.inl trivial) fun _ y _ _ _ _ _ => .pure_nil _) fun swaps v hv => ?_
    split
    · exact (apply_secures hh _ (hv.admits hb) (hv.admits ha)).bind fun _ _ _ hrefs => .pure hrefs
    · exact .pure fun i hi => hv.live (ho i hi)
  | lock =>
    exact .withWrite trivial fun _ _ _ _ _ _ _ => .withWrite trivial fun _ _ _ _ _ _ _ =>
      hnew true rfl rfl
  | fail =>
    have hpayload : ∀ i ∈ a, w.heap.Live i := fun i hi =>
      Heap.admits_true_iff.1 ha i (Option.mem_toList.2 hi)
    exact (fail_secures_of_live hh (by exact hpayload)).bind fun _ _ _ hrefs => .pure hrefs
  | throw => exact .abort trivial _
  | left => exact (Secures.succeed ha).bind fun _ _ _ hrefs => .pure hrefs
  | exhaust => exact .pure ho

end Serving

/-- **The hooks of a script keep a world sound**, for every choice of modes. -/
theorem hooks_secure (s : Scope) (onFailure : FailureMode) (onUnsupported : OfferMode) :
    (hooks s onFailure onUnsupported).Secure .lenient := by
  have hbase : Hooks.Secure .lenient ({ onFailure := onFailure.hook s } : Hooks Memory) :=
    ⟨fun _ h cause _ _ => FailureMode.hook_secures h cause, nofun, fun h => absurd trivial h⟩
  refine ⟨hbase.onFailure, fun hook h op a b outcome w ha hb ho => ?_, fun h => absurd trivial h⟩
  simp only [hooks, OfferMode.hook] at h
  split at h
  · cases h
  · cases h
    refine (describe_secures s a).bind_nil fun left v hv => ?_
    refine (describe_secures s b).bind_nil fun right u hu => ?_
    refine (remember_secures _).bind_nil fun _ t ht => ?_
    have hall := (hv.trans hu).trans ht
    exact OfferMode.serve_secures hbase (hall.admits ha) (hall.admits hb) _ op
      fun i hi => hall.live (ho i hi)

/-! ## Native functions -/

/-- An evaluator that keeps a world sound, given live objects and null. -/
def EvaluatorSecure (evaluator : Evaluator Memory) : Prop :=
  ∀ f args (w : World Memory), w.heap.Admits True f → (∀ r ∈ args, w.heap.Admits True r) →
    Secures .lenient (evaluator.run f args) w Outcome.refs

section Natives

variable {hooks : Hooks Memory} (hh : hooks.Secure .lenient) {evaluator : Evaluator Memory}
  (he : EvaluatorSecure evaluator)
include hh he

theorem mapElements_secures {f out : Ref} (it : Ref) (count : Nat) (hf : w.heap.Admits True f)
    (hout : w.heap.Admits True out) :
    Secures .lenient (mapElements hooks evaluator f it out count) w Outcome.refs := by
  induction count generalizing w with
  | zero => exact .succeed hout
  | succ count ih =>
    refine (next_secures hh trivial it).bind fun outcome v hv hrefs => ?_
    cases outcome with
    | exhausted => exact .succeed (hv.admits hout)
    | failure cause => exact .pure hrefs
    | success element =>
      refine (he f [some element] v (hv.admits hf) fun r hr => ?_).bind fun result u hu hvalue => ?_
      · cases List.mem_singleton.1 hr
        exact hrefs element List.mem_cons_self
      have hvu := hv.trans hu
      cases result with
      | success value =>
        have hlive : u.heap.Admits True (some value) := hvalue value List.mem_cons_self
        exact (append_secures hh trivial hlive).discard.bind_nil fun _ t ht =>
          ih ((hvu.trans ht).admits hf) ((hvu.trans ht).admits hout)
      | failure cause => exact .pure hvalue
      | exhausted => exact .pure hvalue

omit hh he in
/-- An argument, or null where there is none. -/
theorem admits_argument {args : List Ref} (hargs : ∀ r ∈ args, w.heap.Admits True r) (n : Nat) :
    w.heap.Admits True (args[n]?).join := by
  cases hn : args[n]? with
  | none => trivial
  | some r => exact hargs r (List.mem_of_getElem? hn)

theorem HostFunction.run_secures (f : HostFunction) {args : List Ref}
    (hargs : ∀ r ∈ args, w.heap.Admits True r) :
    Secures .lenient (f.run hooks evaluator args) w Outcome.refs := by
  have harg := admits_argument hargs
  cases f with
  | noop => exact .succeedNone
  | join =>
    refine .bind_nil (.mapM_nil fun r hr v hv =>
      text_secures (hv.admits (hargs r hr))) fun _ _ _ => .freshValue_plain rfl rfl
  | count => exact .freshValue_plain rfl rfl
  | first => exact .succeed (harg 0)
  | raise =>
    exact fail_secures_of_live hh fun i hi =>
      Heap.admits_true_iff.1 (harg 0) i (Option.mem_toList.2 hi)
  | callFirst => exact he _ _ w (harg 0) fun r hr => hargs r (List.mem_of_mem_tail hr)
  | getType =>
    refine fun hw => Secures.pure (fun i hi => ?_) hw
    cases List.mem_singleton.1 hi
    exact hw.heap.canonical _ (typeId_mem_canonicalIds _)
  | truth =>
    exact (truth_secures (harg 0)).bind_nil fun _ _ _ => .freshValue_plain rfl rfl
  | exhaust => exact .pure_of_nil rfl
  | throw => exact .abort trivial _
  | add => exact apply_secures hh _ (harg 0) (harg 1)
  | append => exact append_secures hh trivial (harg 1)
  | touch =>
    exact (bindAttribute_secures trivial _ _ (harg 1)).bind_nil fun _ _ _ => .succeedNone
  | map =>
    refine (iterate_secures hh (harg 1)).bind fun outcome v hv hrefs => ?_
    cases outcome with
    | success it =>
      refine (Secures.fresh (.of_slots rfl) (.inl trivial)).bind fun out u hu hout => ?_
      exact mapElements_secures hh he (some it) 1000 ((hv.trans hu).admits (harg 0))
        (hout out List.mem_cons_self)
    | failure cause => exact .pure hrefs
    | exhausted => exact .pure hrefs

end Natives

theorem natives_secure {hooks : Hooks Memory} (hh : hooks.Secure .lenient)
    {evaluator : Evaluator Memory} (he : EvaluatorSecure evaluator) (code : NativeId)
    {args : List Ref} (hargs : ∀ r ∈ args, w.heap.Admits True r) :
    Secures .lenient (natives hooks code evaluator args) w Outcome.refs := by
  unfold natives
  split
  · exact HostFunction.run_secures hh he _ hargs
  · exact .abort trivial _

/-! ## The evaluator -/

theorem interpret_secures (program : Option Program) {args : List Ref}
    (hargs : ∀ r ∈ args, w.heap.Admits True r) :
    Secures .lenient (interpret program args) w Outcome.refs := by
  refine (remember_secures _).bind_nil fun _ v hv => ?_
  refine (Secures.mapM fun b _ u _ => .fresh (.of_slots rfl) (.inl trivial)).bind
    fun bytes u hu hbytes => .freshValue (.list fun r hr => ?_) (.inl trivial)
  rcases List.mem_append.1 hr with hr | hr
  · obtain ⟨i, hi, rfl⟩ := List.mem_map.1 hr
    exact hbytes i (List.mem_flatMap.2 ⟨i, hi, List.mem_singleton_self i⟩)
  · exact (hv.trans hu).admits (hargs r hr)

theorem interpreted?_secures (f : Ref) {args : List Ref}
    (hargs : ∀ r ∈ args, w.heap.Admits True r) :
    Secures .lenient (interpreted? f args) w fun result => result.elim [] Outcome.refs := by
  refine .withRead (.inl trivial) fun _ o v hv _ _ _ => ?_
  split
  · exact (interpret_secures _ fun r hr => hv.admits (hargs r hr)).map some fun _ _ hi => hi
  · exact .pure_of_nil rfl

theorem callWithin_secures {hooks : Hooks Memory} (hh : hooks.Secure .lenient) (depth : Nat) :
    EvaluatorSecure ⟨callWithin hooks depth⟩ := by
  induction depth with
  | zero =>
    intro f args w _ _
    have hpeek : Secures .lenient (peek f) w fun _ => [] :=
      .withRead (.inl trivial) fun _ _ _ _ _ _ _ => .pure_nil _
    exact hpeek.discard.bind_nil fun _ _ _ => .abort trivial _
  | succ depth ih =>
    intro f args w hf hargs
    refine (interpreted?_secures f hargs).bind fun result v hv hrefs => ?_
    cases result with
    | some outcome => exact .pure hrefs
    | none =>
      let env : Environment Memory := ⟨hooks, natives hooks, some ⟨callWithin hooks depth⟩⟩
      have henv : env.Secure .lenient :=
        ⟨hh, fun _ h code args w hargs => by cases h; exact natives_secure hh ih code hargs,
          fun _ h f args w hf hargs => by cases h; exact ih f args w hf hargs⟩
      exact call_secures henv trivial (hv.admits hf) fun r hr => hv.admits (hargs r hr)

theorem evaluator_secure {hooks : Hooks Memory} (hh : hooks.Secure .lenient) (args : List Ref) :
    EvaluatorSecure (evaluator hooks args) := callWithin_secures hh _

end ValueEngine.Script

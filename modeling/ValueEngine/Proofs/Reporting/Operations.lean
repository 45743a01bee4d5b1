/-
  Value engine — every operation tells of its failure, and of nothing else.

  One lemma for each action that an operation is made of, up to the operations
  themselves: what ends in a failure told of it, what does not is silent.

  * `Outcome.finish`, `Verdict.finish`, …: the failure that a value is.
  * `lookup_silent`, `text_silent`, …: the actions that have no failures.
  * `equality_reports`, `scan_reports`: recursions hand a failure on and stop.
  * `Request.CallsNobody`: requests that enter nothing that can be called.
  * `Request.writing`: the guard for writing under which a request may fail.
  * `Request.reports`: every request.
-/
import ValueEngine.Proofs.Iteration.Advance
import ValueEngine.Proofs.Reporting.Ending

namespace ValueEngine

variable {σ α β : Type} {company : Company σ} {w : World σ}

/-! ## What values say -/

/-- What an outcome says. -/
def Outcome.finish : Outcome → Finish
  | success _ => .well
  | failure cause => .failed cause
  | exhausted => .over

/-- What an outcome says of a step of an iterator, which may well come to the end. -/
def Outcome.stepFinish : Outcome → Finish
  | failure cause => .failed cause
  | _ => .well

/-- What a verdict says. -/
def Verdict.finish : Verdict → Finish
  | failed cause => .failed cause
  | _ => .well

theorem Verdict.finish_ofBool (b : Bool) : (Verdict.ofBool b).finish = .well := by
  cases b <;> rfl

/-- What an order, or the failure in its place, says. -/
def orderFinish : Except Failure Ordering → Finish
  | .error cause => .failed cause
  | .ok _ => .well

theorem fail_reports (cause : Failure) :
    Reports company Outcome.finish [] (fun hooks => fail hooks cause) w := .report rfl

theorem freshValue_reports (payload : Payload) :
    Reports company Outcome.finish [] (fun _ => freshValue payload) w :=
  .bind_silent (.fresh payload) fun _ _ => .pure rfl

theorem succeed_reports : ∀ r : Ref, Reports company Outcome.finish [] (fun _ => Action.succeed r) w
  | none => .abort _
  | some _ => .pure rfl

/-! ## Arithmetic -/

theorem integerOutcome_reports (op : Operator) : ∀ value,
    Reports company Outcome.finish [] (fun hooks => integerOutcome hooks op value) w
  | some _ => freshValue_reports _
  | none => fail_reports _

theorem quotientOutcome_reports (x y : Int32) :
    Reports company Outcome.finish [] (fun hooks => quotientOutcome hooks x y) w :=
  .ite (fun _ => fail_reports _) fun _ =>
    .bind_silent (.ofExcept _) fun value _ => integerOutcome_reports _ value

theorem joinTexts_reports (s t : Bytes) :
    Reports company Outcome.finish [] (fun hooks => joinTexts hooks s t) w :=
  .bind_silent .settings fun _ _ => .ite (fun _ => fail_reports _) fun _ => freshValue_reports _

theorem repeatText_reports (text : Bytes) (count : Int32) :
    Reports company Outcome.finish [] (fun hooks => repeatText hooks text count) w :=
  .bind_silent .settings fun _ _ => .ite (fun _ => freshValue_reports _) fun _ =>
    .ite (fun _ => fail_reports _) fun _ => freshValue_reports _

/-- The table has an operation for some payloads whatever the hooks, or for none. -/
theorem builtin_reports (company : Company σ) (op : Operator) (p q : Payload) :
    (∀ hooks : Hooks σ, builtin? hooks op p q = none) ∨
      ∃ action : Hooks σ → Action σ Outcome,
        (∀ hooks, builtin? hooks op p q = some (action hooks)) ∧
        ∀ w, Reports company Outcome.finish [] action w := by
  cases h : builtin? ({} : Hooks σ) op p q with
  | none =>
    refine .inl fun hooks => ?_
    have hsupports := isSome_builtin? hooks op p q
    rw [← isSome_builtin? {} op p q, h] at hsupports
    exact Option.isNone_iff_eq_none.1 (by simpa using hsupports)
  | some action =>
    unfold builtin? at h
    split at h <;> cases h
    · exact .inr ⟨_, fun _ => rfl, fun _ => integerOutcome_reports _ _⟩
    · exact .inr ⟨_, fun _ => rfl, fun _ => joinTexts_reports _ _⟩
    · exact .inr ⟨_, fun _ => rfl, fun _ => freshValue_reports _⟩
    · exact .inr ⟨_, fun _ => rfl, fun _ => integerOutcome_reports _ _⟩
    · exact .inr ⟨_, fun _ => rfl, fun _ => integerOutcome_reports _ _⟩
    · exact .inr ⟨_, fun _ => rfl, fun _ => repeatText_reports _ _⟩
    · exact .inr ⟨_, fun _ => rfl, fun _ => quotientOutcome_reports _ _⟩

/-- What an operator says that was served, or was not. -/
def servedFinish : Except (Kind × Kind) Outcome → Finish
  | .ok outcome => outcome.finish
  | .error _ => .well

theorem applyBuiltin_reports (op : Operator) (a b : Ref) :
    Reports company servedFinish [] (fun hooks => op.applyBuiltin hooks a b) w := by
  refine .withRead fun i x v => .withRead fun j y v => ?_
  rcases builtin_reports company op x.payload y.payload with hnone | ⟨action, hsome, ht⟩
  · simp only [hnone]
    exact .pure rfl
  · simp only [hsome]
    exact .bind_silent (.trace (by decide) _) fun _ v => (ht v).map fun _ => rfl

/-- Operators are offered to the host only where nothing is lent. -/
theorem applyUnsupported_reports
    (hoffer : ∀ offer, company.offer = some offer →
      ∀ op a b outcome, Silent company (offer op a b outcome))
    (op : Operator) (a b : Ref) (left right : Kind) :
    Reports company Outcome.finish []
      (fun hooks => op.applyUnsupported hooks a b left right) w := by
  cases ho : company.offer with
  | none =>
    refine .after_untold (.refl w) (fail_reports (.unsupportedOperands op left right))
      fun hooks hh => ?_
    simp only [Operator.applyUnsupported, hh, ho]
  | some offer =>
    refine .after_untold (.refl w) (x := fun hooks => do
      let offered ← offer op a b .exhausted
      if offered.1 then return offered.2
      else fail hooks (.unsupportedOperands op left right)) ?_ fun hooks hh => ?_
    · refine .bind_silent (hoffer offer ho op a b _) fun offered v => .ite (fun _ => ?_) fun _ =>
        fail_reports _
      -- what the host hands in is its own affair
      exact ⟨.silent (.ok offered.2 v), .value (fun h => by simp [ho] at h) (.refl v),
        fun _ _ => rfl⟩
    · simp only [Operator.applyUnsupported, hh, ho]

theorem apply_reports
    (hoffer : ∀ offer, company.offer = some offer →
      ∀ op a b outcome, Silent company (offer op a b outcome)) (op : Operator) (a b : Ref) :
    Reports company Outcome.finish [] (fun hooks => op.apply hooks a b) w := by
  refine .bind (applyBuiltin_reports op a b) (fun served hne => ?_) fun served v hwell => ?_
  · cases served with
    | ok outcome => exact ⟨outcome, rfl, fun _ => rfl⟩
    | error kinds => exact absurd rfl hne
  · cases served with
    | ok outcome => exact .pure hwell
    | error kinds => exact applyUnsupported_reports hoffer op a b _ _

/-! ## Comparison -/

theorem refuse_reports (a b : Object) :
    Reports company Verdict.finish [] (fun hooks => refuse hooks a b) w := .report rfl

theorem allEqual_reports {test : Hooks σ → Ref → Ref → Comparing σ Verdict}
    (ht : ∀ l r pairs w, Reports company (·.1.finish) [] (fun hooks => test hooks l r pairs) w)
    (ls rs : List Ref) (pairs : List (ObjId × ObjId)) (w : World σ) :
    Reports company (·.1.finish) [] (fun hooks => allEqual (test hooks) ls rs pairs) w := by
  induction ls generalizing rs pairs w with
  | nil => exact .pure rfl
  | cons l ls ih =>
    cases rs with
    | nil => exact .pure rfl
    | cons r rs =>
      refine .bind (ht l r pairs w) (fun answer hne => ?_) fun answer v hwell => ?_
      · obtain ⟨verdict, pairs⟩ := answer
        cases verdict with
        | failed => exact ⟨_, rfl, fun _ => rfl⟩
        | _ => exact absurd rfl hne
      · obtain ⟨verdict, pairs⟩ := answer
        cases verdict with
        | equal => exact ih rs pairs v
        | unequal => exact .pure rfl
        | failed => cases hwell

theorem equality_reports (depth : Nat) (i : ObjId) (a : Object) (j : ObjId) (b : Object)
    (pairs : List (ObjId × ObjId)) (w : World σ) :
    Reports company (·.1.finish) [] (fun hooks => equality hooks depth i a j b pairs) w := by
  induction depth generalizing i a j b pairs w with
  | zero => exact .abort _
  | succ depth ih =>
    simp only [equality]
    refine .ite (fun _ => (refuse_reports a b).map fun _ => rfl) fun _ =>
      .ite (fun _ => .pure rfl) fun _ => ?_
    split
    · exact .pure (Verdict.finish_ofBool _)
    · exact .pure (Verdict.finish_ofBool _)
    · refine .ite (fun _ => .pure rfl) fun _ => .ite (fun _ => .pure rfl) fun _ => ?_
      refine .map (allEqual_reports (fun l r pairs w => ?_) _ _ _ w) fun _ => rfl
      exact .withRead fun i a _ => .withRead fun j b v => ih i a j b pairs v
    · exact (refuse_reports a b).map fun _ => rfl

theorem judge_reports (i : ObjId) (a : Object) (j : ObjId) (b : Object) :
    Reports company Verdict.finish [] (fun hooks => judge hooks i a j b) w :=
  .bind_silent .heap fun heap v =>
    (equality_reports (heap.size * heap.size + 1) i a j b [] v).map fun _ => rfl

theorem verdict_outcome_reports (answer : Bool → Bool) : ∀ verdict : Verdict,
    verdict.finish = .well →
      Reports company Outcome.finish [] (fun _ => verdict.outcome answer) w
  | .equal, _ => freshValue_reports _
  | .unequal, _ => freshValue_reports _

theorem judged_reports (answer : Bool → Bool) (a b : Ref) :
    Reports company Outcome.finish [] (fun hooks => withRead a fun i x => withRead b fun j y => do
      (← judge hooks i x j y).outcome answer) w := by
  refine .withRead fun i x v => .withRead fun j y v => ?_
  refine .bind (judge_reports i x j y) (fun verdict hne => ?_) fun verdict v =>
    verdict_outcome_reports answer verdict
  cases verdict with
  | failed cause => exact ⟨.failure cause, rfl, fun _ => rfl⟩
  | _ => exact absurd rfl hne

theorem orderOf_reports (a b : Object) :
    Reports company orderFinish [] (fun hooks => orderOf hooks a b) w := by
  unfold orderOf
  split
  · exact .pure rfl
  · exact .report rfl

theorem orderOutcome_reports (answer : Ordering → Payload) (a b : Ref) :
    Reports company Outcome.finish [] (fun hooks => orderOutcome hooks answer a b) w := by
  refine .bind (.withRead fun _ x v => .withRead fun _ y v => orderOf_reports x y)
    (fun order hne => ?_) fun order v hwell => ?_
  · cases order with
    | error cause => exact ⟨.failure cause, rfl, fun _ => rfl⟩
    | ok order => exact absurd rfl hne
  · cases order with
    | error cause => cases hwell
    | ok order => exact freshValue_reports _

/-! ## Collections -/

theorem sequenceItem_reports (whole : List Ref → Payload) (elements : List Ref) (key : Payload) :
    Reports company Outcome.finish [] (fun hooks => sequenceItem hooks whole elements key) w := by
  unfold sequenceItem
  split
  · split
    · exact succeed_reports _
    · exact fail_reports _
  · split
    · exact freshValue_reports _
    · exact fail_reports _
  · exact fail_reports _

theorem textItem_reports (text : Bytes) (key : Payload) :
    Reports company Outcome.finish [] (fun hooks => textItem hooks text key) w := by
  unfold textItem
  split
  · split
    · exact freshValue_reports _
    · exact fail_reports _
  · split
    · exact freshValue_reports _
    · exact fail_reports _
  · exact fail_reports _

theorem entryItem_reports (entries : Table Ref) (key : Payload) :
    Reports company Outcome.finish [] (fun hooks => entryItem hooks entries key) w := by
  unfold entryItem
  split
  · split
    · exact succeed_reports _
    · exact fail_reports _
  · exact fail_reports _

theorem itemOf_reports (collection key : Payload) :
    Reports company Outcome.finish [] (fun hooks => itemOf hooks collection key) w := by
  unfold itemOf
  split
  · exact sequenceItem_reports _ _ _
  · exact sequenceItem_reports _ _ _
  · exact textItem_reports _ _
  · exact entryItem_reports _ _
  · exact fail_reports _

theorem item_reports (a key : Ref) :
    Reports company Outcome.finish [] (fun hooks => Ref.item hooks a key) w :=
  .withRead fun _ _ _ => .withRead fun _ _ _ => itemOf_reports _ _

theorem replaceOrFail_reports (i : ObjId) : ∀ payload,
    Reports company Outcome.finish [] (fun hooks => replaceOrFail hooks i payload) w
  | .ok _ => .bind_silent (.change fun _ => rfl) fun _ _ => .pure rfl
  | .error cause => fail_reports cause

/-- A collection that nothing can be stored in is lent for writing while that is told. -/
theorem store_reports (a key value : Ref) :
    Reports company Outcome.finish [{ held := a, access := .write }]
      (fun hooks => Ref.store hooks a key value) w := by
  have hbody : ∀ w, Reports company Outcome.finish [{ held := a, access := .write }]
      (fun hooks => do
        let key ← peek key
        withWrite a fun i collection =>
          replaceOrFail hooks i (collection.payload.stored? key.payload value)) w := fun w =>
    .bind_silent (.peek key) fun _ _ => .withWrite fun i _ _ => replaceOrFail_reports i _
  simp only [Ref.store]
  split
  · exact .bind_silent (.abort _) fun _ v => hbody v
  · exact hbody w

theorem lengthOutcome_reports (length : Nat) :
    Reports company Outcome.finish [] (fun hooks => lengthOutcome hooks length) w := by
  unfold lengthOutcome
  split
  · exact freshValue_reports _
  · exact fail_reports _

theorem length_reports (a : Ref) :
    Reports company Outcome.finish [] (fun hooks => Ref.length hooks a) w := by
  refine .withRead fun _ _ _ => ?_
  split
  · exact lengthOutcome_reports _
  · exact fail_reports _

/-- What nothing can be appended to is lent for writing while that is told. -/
theorem append_reports (a value : Ref) :
    Reports company Outcome.finish [{ held := a, access := .write }]
      (fun hooks => Ref.append hooks a value) w := by
  have hbody : ∀ w, Reports company Outcome.finish [{ held := a, access := .write }]
      (fun hooks => withWrite a fun i collection =>
        replaceOrFail hooks i (collection.payload.appended? value)) w := fun w =>
    .withWrite fun i _ _ => replaceOrFail_reports i _
  simp only [Ref.append]
  split
  · exact .bind_silent (.abort _) fun _ v => hbody v
  · exact hbody w

theorem matchElement_reports (j : ObjId) (needle : Object) (element : Ref) :
    Reports company Verdict.finish [] (fun hooks => matchElement hooks j needle element) w :=
  .ite (fun _ => .pure rfl) fun _ => .withRead fun i candidate _ =>
    .ite (fun _ => .pure rfl) fun _ => judge_reports i candidate j needle

theorem scan_reports (j : ObjId) (needle : Object) (elements : List Ref) (w : World σ) :
    Reports company Outcome.finish [] (fun hooks => scan hooks j needle elements) w := by
  induction elements generalizing w with
  | nil => exact freshValue_reports _
  | cons element rest ih =>
    refine .bind (matchElement_reports j needle element) (fun verdict hne => ?_)
      fun verdict v hwell => ?_
    · cases verdict with
      | failed cause => exact ⟨.failure cause, rfl, fun _ => rfl⟩
      | _ => exact absurd rfl hne
    · cases verdict with
      | equal => exact freshValue_reports _
      | unequal => exact ih v
      | failed => cases hwell

theorem membership_reports (collection : Payload) (j : ObjId) (needle : Object) :
    Reports company Outcome.finish [] (fun hooks => membership hooks collection j needle) w := by
  unfold membership
  split
  · exact scan_reports j needle _ w
  · exact scan_reports j needle _ w
  · exact freshValue_reports _
  · exact fail_reports _
  · exact freshValue_reports _
  · exact fail_reports _
  · exact fail_reports _

theorem contains_reports (a value : Ref) :
    Reports company Outcome.finish [] (fun hooks => Ref.contains hooks a value) w :=
  .withRead fun _ _ _ => .withRead fun j needle _ => membership_reports _ j needle

/-! ## Iteration -/

theorem stepOutcome_reports : ∀ element : Option Ref,
    Reports company Outcome.stepFinish [] (fun _ => stepOutcome element) w
  | some (some _) => .pure rfl
  | some none => .abort _
  | none => .pure rfl

theorem iterate_reports (target : Ref) :
    Reports company Outcome.finish [] (fun hooks => Ref.iterate hooks target) w := by
  refine .bind_silent (.peek target) fun object _ => ?_
  split
  · exact freshValue_reports _
  · exact fail_reports _

/-- What is no iterator, or is over no sequence, is lent for writing while that is
    told. -/
theorem next_reports (a : Ref) :
    Reports company Outcome.stepFinish [{ held := a, access := .write }]
      (fun hooks => Ref.next hooks a) w := by
  refine .withWrite fun i object _ => ?_
  split
  · refine .withRead fun _ target _ => ?_
    split
    · exact .bind_silent (.change fun _ => rfl) fun _ _ => stepOutcome_reports _
    · exact .report rfl
  · exact .report rfl

/-! ## Attributes -/

theorem lookup_silent (name : Bytes) (links : Nat) (r : Ref) :
    Silent company (lookup name links r : Action σ Ref) := by
  induction links generalizing r with
  | zero =>
    cases r with
    | none => exact .pure _
    | some i => exact .abort _
  | succ links ih =>
    cases r with
    | none => exact .pure _
    | some i =>
      refine .bind (.peek _) fun o => ?_
      split
      · exact .pure _
      · exact ih o.type

theorem binding_silent (a : Ref) (name : Bytes) :
    Silent company (Ref.binding a name : Action σ Ref) :=
  .bind .heap fun heap => lookup_silent name heap.size a

theorem readAttribute_reports (a : Ref) (name : Bytes) :
    Reports company Outcome.finish [] (fun hooks => Ref.readAttribute hooks a name) w := by
  refine .bind_silent (binding_silent a name) fun found _ => ?_
  split
  · exact .pure rfl
  · exact .bind_silent (.peek a) fun _ _ => fail_reports _

theorem knows_silent (a : Ref) (name : Bytes) :
    Silent company (Ref.knows a name : Action σ Bool) :=
  .bind (binding_silent a name) fun _ => .pure _

theorem bindAttribute_silent (a : Ref) (name : Bytes) (value : Ref) :
    Silent company (Ref.bindAttribute a name value : Action σ Unit) := by
  refine .lend fun i _ => ?_
  cases value with
  | none => exact .abort _
  | some value => exact .change fun _ => rfl

/-- The object is given back before a missing attribute is told. -/
theorem unbindAttribute_reports (a : Ref) (name : Bytes) :
    Reports company Outcome.finish [] (fun hooks => Ref.unbindAttribute hooks a name) w := by
  refine .bind_silent (.lend fun i o => ?_) fun missing _ => ?_
  · split
    · exact .bind (.change fun _ => rfl) fun _ => .pure _
    · exact .pure _
  · split
    · exact .pure rfl
    · exact fail_reports _

/-! ## Texts -/

section Texts

variable {S : Type}

theorem Silent.mapM {f : α → StateT S (Action σ) β} (hf : ∀ a s, Silent company (f a s))
    (xs : List α) (s : S) : Silent company (xs.mapM f s) := by
  induction xs generalizing s with
  | nil =>
    rw [List.mapM_nil]
    exact .pure _
  | cons x xs ih =>
    rw [List.mapM_cons]
    exact .bind (hf x s) fun p => .bind (ih p.2) fun _ => .pure _

theorem payload_render_silent {part : Ref → Rendering σ Bytes}
    (hp : ∀ r path, Silent company (part r path)) (p : Payload) (path : List ObjId) :
    Silent company (p.render part path) := by
  cases p with
  | list elements => exact .bind (.mapM hp elements path) fun _ => .pure _
  | tuple elements => exact .bind (.mapM hp elements path) fun _ => .pure _
  | dict entries =>
    refine .bind (.mapM (fun e path => ?_) entries path) fun _ => .pure _
    exact .bind (hp e.2 path) fun _ => .pure _
  | iterator cursor => exact .bind (hp cursor.target path) fun _ => .pure _
  | _ => exact .pure _

theorem render_silent (depth : Nat) (i : ObjId) (o : Object) (path : List ObjId) :
    Silent company (render depth i o path : Action σ (Bytes × List ObjId)) := by
  induction depth generalizing i o path with
  | zero => exact .abort _
  | succ depth ih =>
    simp only [render]
    split
    · exact .pure _
    · exact .bind (payload_render_silent (fun r path => .lend fun j p => ih j p path) _ _)
        fun _ => .pure _

theorem text_silent (r : Ref) : Silent company (Ref.text r : Action σ Bytes) := by
  unfold Ref.text
  split
  · exact .pure _
  · exact .lend fun i o => .bind .heap fun heap =>
      .bind (render_silent (heap.size + 1) i o []) fun _ => .pure _

end Texts

theorem truth_silent (a : Ref) : Silent company (Ref.truth a : Action σ Bool) :=
  .lend fun _ _ => .pure _

/-! ## Calls -/

/-- A request that enters nothing that can be called. -/
def Request.CallsNobody (w : World σ) : Request → Prop
  | call f _ => ∀ i o, f = some i → w.heap.get? i = some o → o.kind.canBeCalled = false
  | _ => True

/-- A call of what cannot be called goes nowhere. -/
theorem callTarget_of_not_canBeCalled {i : ObjId} {o : Object} (ho : w.heap.get? i = some o)
    (hkind : o.kind.canBeCalled = false) (hooks : Hooks σ) :
    callTarget hooks (some i) w = withRead (some i)
      (fun _ _ => do return .nowhere (← fail hooks (.notCallable o.kind))) w := by
  refine lend_congr ho fun l => ?_
  rw [Object.kind] at hkind ⊢
  cases hp : o.payload with
  | nativeFunction | function => simp [hp, Payload.kind, Kind.canBeCalled] at hkind
  | _ => rfl

/-- What cannot be called is a failure, told while the object is lent. -/
theorem call_of_callsNobody {f : Ref} {args : List Ref}
    (hcall : (Request.call f args).CallsNobody w) (hooks : Hooks σ) (natives : Natives σ)
    (evaluator : Evaluator σ) : Ref.call hooks natives (some evaluator) f args w =
      withRead f (fun _ o => fail hooks (.notCallable o.kind)) w := by
  cases hf : f.bind w.heap.get? with
  | none =>
    have htarget : callTarget hooks f w = .error .nullReference w := lend_of_dead hf
    exact (Action.bind_of_error htarget _).trans (lend_of_dead hf).symm
  | some o =>
    obtain ⟨i, rfl, ho⟩ := Option.bind_eq_some_iff.1 hf
    have htarget := callTarget_of_not_canBeCalled ho (hcall i o rfl ho) hooks
    cases hl : Access.read.acquire o.loan with
    | error e =>
      have hrefused := htarget.trans (lend_of_refused ho hl)
      exact (Action.bind_of_error hrefused _).trans (lend_of_refused ho hl).symm
    | ok loan =>
      cases hfail : fail hooks (.notCallable o.kind) (w.lent i o loan) with
      | ok outcome v =>
        have hgranted := htarget.trans (lend_of_ok ho hl (Action.bind_of_ok hfail _))
        exact (Action.bind_of_ok hgranted _).trans (lend_of_ok ho hl hfail).symm
      | error e v =>
        have hgranted := htarget.trans (lend_of_error ho hl (Action.bind_of_error hfail _))
        exact (Action.bind_of_error hgranted _).trans (lend_of_error ho hl hfail).symm

theorem call_reports {natives : Natives σ} {evaluator : Option (Evaluator σ)} {f : Ref}
    {args : List Ref} (hcall : (Request.call f args).CallsNobody w) :
    Reports company Outcome.finish [] (fun hooks => Ref.call hooks natives evaluator f args) w := by
  cases evaluator with
  | none => exact .abort _
  | some evaluator =>
    exact .after_untold (.refl w) (.withRead fun _ o _ => fail_reports (.notCallable o.kind))
      fun hooks _ => call_of_callsNobody hcall hooks natives evaluator

/-! ## Requests -/

/-- The guard for writing under which a request may come to fail. -/
def Request.writing : Request → List Guard
  | binary .append a _ | unary .next a | store a _ _ => [{ held := a, access := .write }]
  | _ => []

/-- What a response says of a request. -/
def Request.finish : Request → Response → Finish
  | unary .next _, .outcome outcome => outcome.stepFinish
  | _, .outcome outcome => outcome.finish
  | _, _ => .well

section Requests

variable (hoffer : ∀ offer, company.offer = some offer →
  ∀ op a b outcome, Silent company (offer op a b outcome))
include hoffer

theorem binary_reports (verb : Binary) (a b : Ref) :
    Reports company Outcome.finish (Request.binary verb a b).writing
      (fun hooks => verb.run hooks a b) w := by
  cases verb with
  | add | subtract | multiply | divide => exact apply_reports hoffer _ a b
  | equal | different => exact judged_reports _ a b
  | below | atMost | above | atLeast | rank => exact orderOutcome_reports _ a b
  | item => exact item_reports a b
  | append => exact append_reports a b
  | contains => exact contains_reports a b

/-- **Every request tells of its failure**, once and last, and of nothing else. -/
theorem Request.reports (natives : Natives σ) (evaluator : Option (Evaluator σ)) {request : Request}
    (hcall : request.CallsNobody w) :
    Reports company request.finish request.writing
      (fun hooks => request.run { hooks, natives, evaluator }) w := by
  cases request with
  | binary verb a b => exact (binary_reports hoffer verb a b).map fun _ => rfl
  | unary verb a =>
    cases verb with
    | length => exact (length_reports a).map fun _ => rfl
    | iterate => exact (iterate_reports a).map fun _ => rfl
    | next => exact (next_reports a).map fun _ => rfl
  | store a key value => exact (store_reports a key value).map fun _ => rfl
  | readAttribute a name => exact (readAttribute_reports a name).map fun _ => rfl
  | knows a name => exact .bind_silent (knows_silent a name) fun _ _ => .pure rfl
  | bindAttribute a name value =>
    exact .bind_silent (bindAttribute_silent a name value) fun _ _ => .pure rfl
  | unbindAttribute a name => exact (unbindAttribute_reports a name).map fun _ => rfl
  | text a => exact .bind_silent (text_silent a) fun _ _ => .pure rfl
  | truth a => exact .bind_silent (truth_silent a) fun _ _ => .pure rfl
  | call f args => exact (call_reports hcall).map fun _ => rfl

end Requests

end ValueEngine

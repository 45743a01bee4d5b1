/-
  Value engine — every failure is told exactly once, and nothing else is.

  A host that keeps what it is shown finds, after an operation that ended in a failure,
  that failure once more, and after any other operation nothing new. The trace holds a
  line for it if failures are within the verbosity.

  * `Remembers`: hooks for failures that leave what they are shown with the host.
  * `TellsOnce`: actions after which the failure that they ended in was told once.
  * `failures_told_once`: all requests are such actions, and so are the tests behind the
    comparisons. Only a step of an iterator comes to an end.
-/
import ValueEngine.Proofs.Reporting.Operations

namespace ValueEngine

variable {σ α : Type}

/-- The lines of the trace that tell of failures. -/
def World.failureLines (w : World σ) : List TraceLine :=
  w.trace.filter (·.level = failureLevel)

/-- The lines that tell of some failures, none if failures are beyond the verbosity. -/
def Settings.linesFor (settings : Settings) (causes : List Failure) : List TraceLine :=
  if failureLevel ≤ settings.verbosity then causes.map fun cause => ⟨failureLevel, cause.text⟩
  else []

/-- A hook for failures that returns, leaves what it is shown with the host, and writes
    no failure into the trace itself. -/
def Remembers (seen : σ → List Failure) (hook : Failure → Action σ Unit) : Prop :=
  ∀ cause w, ∃ w', hook cause w = .ok () w' ∧ seen w'.host = seen w.host ++ [cause] ∧
    w'.failureLines = w.failureLines

/-- A run after which the host has seen the failures that its value holds, in addition
    to those that it had seen before, and so has the trace. A run that is left has told
    of nothing. -/
def TellsOnce (seen : σ → List Failure) (causes : α → List Failure) (x : Action σ α)
    (w : World σ) : Prop :=
  match x w with
  | .ok a w' => seen w'.host = seen w.host ++ causes a ∧
      w'.failureLines = w.failureLines ++ w.settings.linesFor (causes a)
  | .error _ w' => seen w'.host = seen w.host ∧ w'.failureLines = w.failureLines

/-- The failure that ends an operation, if one does. -/
def Finish.causes : Finish → List Failure
  | failed cause => [cause]
  | _ => []

/-- The failure that a response holds, if it holds one. -/
def Response.causes : Response → List Failure
  | outcome (.failure cause) => [cause]
  | _ => []

/-- The failure that a verdict holds, if it holds one. -/
def Verdict.causes : Verdict → List Failure
  | failed cause => [cause]
  | _ => []

/-- The failure that stands in the place of an order, if one does. -/
def orderCauses : Except Failure Ordering → List Failure
  | .error cause => [cause]
  | .ok _ => []

@[simp] theorem Settings.linesFor_nil (settings : Settings) : settings.linesFor [] = [] :=
  ite_self _

theorem Verdict.causes_finish (verdict : Verdict) : verdict.finish.causes = verdict.causes := by
  cases verdict <;> rfl

theorem orderCauses_finish (order : Except Failure Ordering) :
    (orderFinish order).causes = orderCauses order := by
  cases order <;> rfl

theorem Request.causes_finish (request : Request) (response : Response) :
    (request.finish response).causes = response.causes := by
  cases response with
  | outcome outcome =>
    cases request with
    | unary verb a => cases verb <;> cases outcome <;> rfl
    | _ => cases outcome <;> rfl
  | _ =>
    cases request with
    | unary verb a => cases verb <;> rfl
    | _ => rfl

/-! ## What the host and the trace are left with -/

namespace World

variable (w : World σ) (lent : List Guard)

theorem host_giveBack : (w.giveBack lent).host = w.host := by
  induction lent generalizing w with
  | nil => rfl
  | cons g lent ih =>
    refine (ih _).trans ?_
    obtain ⟨held, access⟩ := g
    cases held <;> rfl

theorem failureLines_giveBack : (w.giveBack lent).failureLines = w.failureLines := by
  induction lent generalizing w with
  | nil => rfl
  | cons g lent ih =>
    refine (ih _).trans ?_
    obtain ⟨held, access⟩ := g
    cases held <;> rfl

theorem failureLines_traced (cause : Failure) :
    (w.traced failureLevel cause.text).failureLines =
      w.failureLines ++ w.settings.linesFor [cause] := by
  unfold traced Settings.linesFor failureLines
  split <;> simp

end World

theorem Untold.failureLines {company : Company σ} {lent : List Guard} {w w' : World σ}
    (h : Untold company lent w w') (hoffer : company.offer = none) :
    w'.failureLines = w.failureLines := by
  obtain ⟨lines, htrace, hlevel⟩ := h.lines hoffer
  have hnone : lines.filter (·.level = failureLevel) = [] :=
    List.filter_eq_nil_iff.2 fun line hline => by simpa using hlevel line hline
  rw [World.failureLines, htrace, List.filter_append, hnone, List.append_nil, World.failureLines]

/-- A host that keeps no guard and serves no operators. -/
def Company.alone : Company σ where
  offer := none
  kept _ := []

theorem Request.reports_alone (env : Environment σ) {request : Request} {w : World σ}
    (hcall : request.CallsNobody w) :
    Reports .alone request.finish request.writing
      (fun hooks => request.run { env with hooks := hooks }) w :=
  Request.reports (fun _ h => by cases h) env.natives env.evaluator hcall

section Once

variable {seen : σ → List Failure} {hook : Failure → Action σ Unit} {hooks : Hooks σ}

/-- What tells of its failure does so once. -/
theorem Reports.once {company : Company σ} {finish : α → Finish} {causes : α → List Failure}
    {writing : List Guard} {x : Hooks σ → Action σ α} {w : World σ}
    (hx : Reports company finish writing x w) (hcauses : ∀ a, (finish a).causes = causes a)
    (hoffer : company.offer = none) (hhook : Remembers seen hook) :
    TellsOnce seen causes (x { onFailure := some hook }) w := by
  obtain ⟨ending, hfits, hrun⟩ := hx
  have hrun := hrun { onFailure := some hook } hoffer.symm
  unfold TellsOnce
  cases hfits with
  | @value a w' ha hw =>
    have hnone : causes a = [] := by
      rw [← hcauses, ha hoffer]
      rfl
    rw [show x _ w = .ok a w' from hrun]
    simp only [hnone, Settings.linesFor_nil, List.append_nil]
    exact ⟨congrArg seen (hw.host hoffer), hw.failureLines hoffer⟩
  | @abort e w' hw =>
    rw [show x _ w = .error e w' from hrun]
    exact ⟨congrArg seen (hw.host hoffer), hw.failureLines hoffer⟩
  | @told cause before lent value hvalue hw hlent =>
    have hcause : causes value = [cause] := by
      rw [← hcauses, hvalue]
      rfl
    -- the hook is entered once, where nothing was told yet
    obtain ⟨w', hentry, hseen, hlines⟩ := hhook cause (before.traced failureLevel cause.text)
    have hreport : ValueEngine.report { onFailure := some hook } cause before = .ok () w' := hentry
    have hend : x { onFailure := some hook } w = .ok value (w'.giveBack lent) := by
      rw [hrun]
      simp only [Ending.resume, hreport]
    rw [hend]
    simp only [hcause, World.host_giveBack, World.failureLines_giveBack]
    constructor
    · rw [hseen, World.host_traced, hw.host hoffer]
    · rw [hlines, World.failureLines_traced, hw.failureLines hoffer, hw.settings hoffer]

end Once

/-! ## The end of an iteration -/

/-- Only a step of an iterator comes to an end. -/
theorem Request.eq_next_of_exhausted {env : Environment σ}
    (hoffer : env.hooks.onUnsupported = none) {request : Request} {w w' : World σ}
    (hcall : request.CallsNobody w) (h : request.run env w = .ok (.outcome .exhausted) w') :
    ∃ a, request = .unary .next a := by
  obtain ⟨ending, hfits, hrun⟩ := Request.reports_alone env hcall
  have hover : request.finish (.outcome .exhausted) = .well := by
    have hrun := (hrun env.hooks hoffer).symm.trans h
    cases hfits with
    | value ha hw => cases hrun; exact ha rfl
    | abort hw => cases hrun
    | @told cause before lent value hvalue hw hlent =>
      simp only [Ending.resume] at hrun
      cases hreport : report env.hooks cause before with
      | error e v => rw [hreport] at hrun; cases hrun
      | ok u v =>
        rw [hreport] at hrun
        cases hrun
        have hcauses := Request.causes_finish request (.outcome .exhausted)
        rw [hvalue] at hcauses
        cases hcauses
  cases request with
  | unary verb a =>
    cases verb with
    | next => exact ⟨a, rfl⟩
    | _ => cases hover
  | _ => cases hover

/-! ## The main result -/

/-- **Every failure is told exactly once, and nothing else is.** Let a host remember the
    failures that it is shown, serve no operators, and call nothing that can be called.
    Then each request that ends in a failure adds just that failure to what the host has
    seen and, within the verbosity, just its line to the trace; a request that ends
    otherwise, or is left, adds nothing. The same holds of the tests behind the
    comparisons. No request but a step of an iterator ends with nothing left. -/
theorem failures_told_once {seen : σ → List Failure} {hook : Failure → Action σ Unit}
    {env : Environment σ} (hhook : Remembers seen hook)
    (henv : env.hooks = { onFailure := some hook }) :
    (∀ (request : Request) (w : World σ), request.CallsNobody w →
      TellsOnce seen Response.causes (request.run env) w ∧
        ∀ w', request.run env w = .ok (.outcome .exhausted) w' → ∃ a, request = .unary .next a) ∧
    (∀ i a j b w, TellsOnce seen Verdict.causes (judge env.hooks i a j b) w) ∧
    ∀ a b w, TellsOnce seen orderCauses (orderOf env.hooks a b) w := by
  refine ⟨fun request w hcall => ⟨?_, fun w' => ?_⟩, fun i a j b w => ?_, fun a b w => ?_⟩
  · have hreports := Request.reports_alone env hcall
    have hrun : request.run env =
        request.run { env with hooks := { onFailure := some hook } } := by rw [← henv]
    rw [hrun]
    exact hreports.once request.causes_finish rfl hhook
  · exact Request.eq_next_of_exhausted (by rw [henv]) hcall
  · have hreports : Reports .alone Verdict.finish [] (fun hooks => judge hooks i a j b) w :=
      judge_reports i a j b
    rw [henv]
    exact hreports.once Verdict.causes_finish rfl hhook
  · have hreports : Reports .alone orderFinish [] (fun hooks => orderOf hooks a b) w :=
      orderOf_reports a b
    rw [henv]
    exact hreports.once orderCauses_finish rfl hhook

/-- A host that keeps the failures that it is shown, and nothing else. -/
def keeping (cause : Failure) : Action (List Failure) Unit :=
  modify fun w => { w with host := w.host ++ [cause] }

theorem keeping_remembers : Remembers id keeping := fun _ _ => ⟨_, rfl, rfl, rfl⟩

/-- To order None and None fails once, for the host and for the trace. -/
theorem failures_told_once_unordered :
    let request := Request.binary .below (some noneId) (some noneId)
    let env : Environment (List Failure) := { hooks := { onFailure := some keeping } }
    let w : World (List Failure) := { World.initial [] with settings := { verbosity := 1 } }
    let cause := Failure.unordered .noneObject .noneObject
    TellsOnce id Response.causes (request.run env) w ∧
      ((request.run env).after w).host = [cause] ∧
      ((request.run env).after w).failureLines = [⟨failureLevel, cause.text⟩] :=
  ⟨((failures_told_once keeping_remembers rfl).1 (.binary .below _ _) _ trivial).1, rfl, rfl⟩

end ValueEngine

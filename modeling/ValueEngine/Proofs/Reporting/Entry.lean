/-
  Value engine — what is lent while the host is told of a failure.

  Most operations are only reading when they tell of a failure, so the host may read
  what it likes meanwhile. Three are not: a value that is stored or appended where that
  is impossible, and a step of what cannot be stepped, are told while the object is
  lent for writing.

  * `Environment.hearing`: the same host code with another hook for failures.
  * `unwritten_when_told`: requests under which every object can be read meanwhile.
  * `lent_when_told`: what is lent when the hook for failures is entered.
  * `not_readable_when_told`: a tuple that nothing can be appended to cannot be read.
-/
import ValueEngine.Proofs.Loans.Answers
import ValueEngine.Proofs.Reporting.Operations

namespace ValueEngine

variable {σ : Type} {w : World σ}

/-- The same host code with another hook for failures. -/
def Environment.hearing (env : Environment σ) (hook : Option (Failure → Action σ Unit)) :
    Environment σ :=
  { env with hooks := { env.hooks with onFailure := hook } }

/-- Host code that keeps loans exact is silent as far as operations are concerned. -/
theorem Silent.of_accounted {α : Type} {company : Company σ} (hoffer : company.offer ≠ none)
    {x : Action σ α} (hx : Accounted company.kept x) : Silent company x := fun w =>
  ⟨fun gs he => hx gs w he, fun h => absurd h hoffer, fun h => absurd h hoffer,
    fun h => absurd h hoffer⟩

/-! ## Calls -/

/-- What a call goes to does not depend on the hooks if something can be called. -/
theorem callTarget_of_canBeCalled {i : ObjId} {o : Object} (ho : w.heap.get? i = some o)
    (hcall : o.kind.canBeCalled = true) (hooks hooks' : Hooks σ) :
    callTarget hooks (some i) w = callTarget hooks' (some i) w := by
  refine lend_congr ho fun l => ?_
  rw [Object.kind] at hcall
  cases hp : o.payload with
  | nativeFunction code => cases code <;> rfl
  | function => rfl
  | _ => rw [hp] at hcall; cases hcall

theorem Request.run_eq_of_calls {request : Request} (hcall : ¬request.CallsNobody w)
    (env : Environment σ) (hook hook' : Option (Failure → Action σ Unit)) :
    request.run (env.hearing hook) w = request.run (env.hearing hook') w := by
  cases request with
  | call f args =>
    simp only [Request.CallsNobody, not_forall, Bool.not_eq_false] at hcall
    obtain ⟨i, o, rfl, ho, hcan⟩ := hcall
    have htarget := callTarget_of_canBeCalled ho hcan (env.hearing hook).hooks
      (env.hearing hook').hooks
    cases he : env.evaluator with
    | none => simp only [Request.run, Environment.hearing, Ref.call, he]
    | some evaluator =>
      simp only [Request.run, Environment.hearing, Ref.call, he, bind, EStateM.bind] at htarget ⊢
      rw [htarget]
  | _ => exact absurd trivial hcall

/-! ## The hook for failures -/

section Told

variable {kept : σ → List Guard} {env : Environment σ}
  (hoffer : ∀ offer, env.hooks.onUnsupported = some offer →
    ∀ op a b outcome, Accounted kept (offer op a b outcome))
include hoffer

/-- The loans at the one place where a request may enter the hook for failures, whatever
    the hook is. -/
theorem Request.exists_ending (request : Request) (he : Exact (kept w.host) w.heap) :
    ∃ ending : Ending σ Response,
      (∀ hook, request.run (env.hearing hook) w = ending.resume (env.hearing hook).hooks) ∧
      ∀ cause before lent value, ending = .told cause before lent value →
        Exact (lent ++ kept before.host) before.heap ∧
          lent.filter (·.access = .write) = request.writing := by
  by_cases hcall : request.CallsNobody w
  · let company : Company σ := { offer := env.hooks.onUnsupported, kept }
    have hsilent : ∀ offer, company.offer = some offer →
        ∀ op a b outcome, Silent company (offer op a b outcome) := fun offer ho op a b outcome =>
      .of_accounted (by simp [ho]) (hoffer offer ho op a b outcome)
    obtain ⟨ending, hfits, hrun⟩ := Request.reports hsilent env.natives env.evaluator hcall
    refine ⟨ending, fun hook => hrun _ rfl, ?_⟩
    rintro cause before lent value rfl
    cases hfits with
    | told hvalue hw hlent => exact ⟨hw.loans [] he, hlent⟩
  · refine ⟨.silent (request.run (env.hearing none) w), fun hook => ?_, fun _ _ _ _ h => ?_⟩
    · exact Request.run_eq_of_calls hcall env hook none
    · exact absurd h Ending.silent_ne_told

/-- **What does not write can be watched.** If a host keeps no guard for writing, every
    object can be read while it is told of a failure, unless what fails is an append, a
    store or a step of an iterator. -/
theorem unwritten_when_told {request : Request} (hreads : request.writing = [])
    (hkept : ∀ host, ∀ g ∈ kept host, g.access = .read) (he : Exact (kept w.host) w.heap) :
    ∃ ending : Ending σ Response,
      (∀ hook, request.run (env.hearing hook) w = ending.resume (env.hearing hook).hooks) ∧
      ∀ cause before lent value, ending = .told cause before lent value →
        before.heap.Unwritten := by
  obtain ⟨ending, hrun, htold⟩ := request.exists_ending hoffer he
  refine ⟨ending, hrun, fun cause before lent value hending => ?_⟩
  obtain ⟨hexact, hlent⟩ := htold cause before lent value hending
  refine hexact.unwritten fun g hg _ _ => ?_
  rcases List.mem_append.1 hg with hg | hg
  · have hnot := List.filter_eq_nil_iff.1 (hlent.trans hreads) g hg
    cases ha : g.access with
    | read => rfl
    | write => simp [ha] at hnot
  · exact hkept _ g hg

/-- **What is lent when a failure is told.** Let the loans be those of the guards that a
    host keeps. A request either never enters the hook for failures, whatever it is; or
    it enters it once, when the loans are those of some `lent` and of the guards that
    the host keeps by then. Of what is lent, just the receiver of an append, a store or
    a step of an iterator is lent for writing. -/
theorem lent_when_told (request : Request) (he : Exact (kept w.host) w.heap) :
    ∃ ending : Ending σ Response,
      (∀ hook, request.run (env.hearing hook) w = ending.resume (env.hearing hook).hooks) ∧
      ∀ cause before lent value, ending = .told cause before lent value →
        Exact (lent ++ kept before.host) before.heap ∧
        lent.filter (·.access = .write) = request.writing ∧
        ∀ i o, before.heap.get? i = some o → (o.loan = .exclusive ↔
          { held := some i, access := .write } ∈ request.writing ++ kept before.host) := by
  obtain ⟨ending, hrun, htold⟩ := request.exists_ending hoffer he
  refine ⟨ending, hrun, fun cause before lent value hending => ?_⟩
  obtain ⟨hexact, hlent⟩ := htold cause before lent value hending
  refine ⟨hexact, hlent, fun i o ho => ?_⟩
  rw [hexact.exclusive_iff ho, List.mem_append, List.mem_append, ← hlent, List.mem_filter]
  simp

end Told

/-! ## A tuple that is locked while its failure is told -/

/-- An engine with an empty tuple. -/
def withTuple (host : σ) : World σ :=
  { World.initial host with
    heap := (Heap.initial.allocate { payload := .tuple [], type := some Kind.tuple.typeId }).2 }

theorem exact_withTuple (host : σ) : Exact [] (withTuple host).heap := exact_initial.allocate rfl

/-- The request to append to a tuple. -/
def appendToTuple : Request := .binary .append (some firstId) (some noneId)

/-- While the host is told that nothing can be appended to a tuple, the tuple is lent
    for writing. -/
theorem lent_when_told_appendToTuple :
    ∃ cause before lent value,
      (∀ hook, appendToTuple.run (Environment.hearing {} hook) (withTuple ()) =
        (Ending.told cause before lent value).resume { onFailure := hook }) ∧
      ∃ o, before.heap.get? firstId = some o ∧ o.loan = .exclusive := by
  obtain ⟨ending, hrun, htold⟩ := @lent_when_told Unit (withTuple ()) (fun _ => []) {} nofun
    appendToTuple (exact_withTuple ())
  cases ending with
  | silent result =>
    -- what is silent comes to the same with any hook
    have hsilent := (hrun none).trans (hrun (some fun _ => Action.abort .unfinished)).symm
    cases hsilent
  | told cause before lent value =>
    obtain ⟨hexact, hlent, hexclusive⟩ := htold cause before lent value rfl
    refine ⟨cause, before, lent, value, hrun, ?_⟩
    have hguard : { held := some firstId, access := .write } ∈ lent := by
      refine List.mem_of_mem_filter (p := (·.access = .write)) ?_
      rw [hlent]
      exact List.mem_singleton_self _
    have hlive := hexact.held _ (List.mem_append_left _ hguard) firstId rfl
    obtain ⟨o, ho⟩ := Option.isSome_iff_exists.1 hlive
    refine ⟨o, ho, (hexclusive firstId o ho).2 ?_⟩
    exact List.mem_append_left _ (List.mem_singleton_self _)

/-- A hook that notes with the host whether it was ever entered while some object was
    lent for writing. -/
def watching : Failure → Action Bool Unit := fun _ => modify fun w =>
  { w with host := w.host || w.heap.cells.toList.any fun cell => cell.any (·.loan = .exclusive) }

/-- The hook for failures is not only entered where nothing is lent for writing, and an
    operand of the operation that failed cannot always be shown there. -/
theorem not_readable_when_told :
    (¬∀ (request : Request) (w : World Bool), Exact [] w.heap → w.host = false →
      ((request.run { hooks := { onFailure := some watching } }).after w).host = false) ∧
    ¬∀ (request : Request) (w : World Unit) (a : Ref), Exact [] w.heap → a ∈ request.operands →
      ¬Conflicts (request.run { hooks := { onFailure := some fun _ => discard (Ref.text a) } }) w := by
  constructor
  · intro h
    have hhost := h appendToTuple (withTuple false) (exact_withTuple false) rfl
    revert hhost
    decide
  · intro h
    refine h appendToTuple (withTuple ()) (some firstId) (exact_withTuple ()) ?_
      ⟨.exclusivelyLent, _, rfl, rfl⟩
    decide

end ValueEngine

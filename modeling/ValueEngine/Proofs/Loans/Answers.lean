/-
  Value engine — guards abort operations, they never change them.

  * `call_eq_of_not_native`: native code does not matter to what calls none.
  * `guards_never_change_answers`: an operation that is not left for a conflict does what
    it does with no guard around, and which operations readers make conflict.
-/
import ValueEngine.Proofs.Loans.Footprint
import ValueEngine.Proofs.Loans.Run

namespace ValueEngine

variable {σ : Type}

/-! ## Calls -/

/-- A reference to no native function. -/
def World.NoNative (w : World σ) (f : Ref) : Prop :=
  ∀ i o, f = some i → w.heap.get? i = some o → ∀ target, o.payload ≠ .nativeFunction target

theorem World.NoNative.unlent {w : World σ} {f : Ref} (h : w.NoNative f) : w.unlent.NoNative f := by
  intro i o hf ho
  rw [World.unlent, Heap.get?_unlent] at ho
  obtain ⟨p, hp, rfl⟩ := Option.map_eq_some_iff.1 ho
  exact h i p hf hp

/-- Only a native function leads to native code. -/
theorem callTarget_ne_native {hooks : Hooks σ} {f : Ref} {w w' : World σ} (h : w.NoNative f)
    (code : NativeId) : callTarget hooks f w ≠ .ok (.native code) w' := by
  intro hrun
  have hnowhere : ∀ (x : Action σ Outcome) (u u' : World σ),
      (do return CallTarget.nowhere (← x) : Action σ CallTarget) u ≠ .ok (.native code) u' := by
    intro x u u' hx
    cases hu : x u with
    | ok outcome v => cases (Action.bind_of_ok hu _).symm.trans hx
    | error e v => cases (Action.bind_of_error hu _).symm.trans hx
  cases hd : f.bind w.heap.get? with
  | none =>
    rw [callTarget, withRead, lend_of_dead hd] at hrun
    cases hrun
  | some o =>
    obtain ⟨i, rfl, ho⟩ := Option.bind_eq_some_iff.1 hd
    cases hl : Access.read.acquire o.loan with
    | error e =>
      rw [callTarget, withRead, lend_of_refused ho hl] at hrun
      cases hrun
    | ok m =>
      rw [callTarget, withRead, lend_of_granted ho hl] at hrun
      split at hrun
      · rename_i target v hbody
        cases hrun
        cases hp : o.payload with
        | nativeFunction target => exact h i o rfl ho target hp
        | function program =>
          simp only [hp] at hbody
          cases hbody
        | _ =>
          simp only [hp] at hbody
          exact hnowhere _ _ _ hbody
      · cases hrun

/-- Native code does not matter to a call of anything else. -/
theorem call_eq_of_not_native (hooks : Hooks σ) (natives natives' : Natives σ)
    (evaluator : Option (Evaluator σ)) {f : Ref} {w : World σ} (h : w.NoNative f)
    (args : List Ref) :
    Ref.call hooks natives evaluator f args w = Ref.call hooks natives' evaluator f args w := by
  cases evaluator with
  | none => rfl
  | some evaluator =>
    unfold Ref.call
    cases ht : callTarget hooks f w with
    | error e w' =>
      simp only
      rw [Action.bind_of_error ht, Action.bind_of_error ht]
    | ok target w' =>
      simp only
      rw [Action.bind_of_ok ht, Action.bind_of_ok ht]
      cases target with
      | native code => exact absurd ht (callTarget_ne_native h code)
      | evaluator => rfl
      | nowhere outcome => rfl

/-- A request that calls no native function. -/
def Request.CallsNoNative (w : World σ) : Request → Prop
  | call f _ => w.NoNative f
  | _ => True

theorem Request.CallsNoNative.unlent {w : World σ} {request : Request}
    (h : request.CallsNoNative w) : request.CallsNoNative w.unlent := by
  cases request with
  | call f args => exact World.NoNative.unlent h
  | _ => trivial

theorem Request.run_eq_of_not_native {env : Environment σ} {w : World σ} {request : Request}
    (h : request.CallsNoNative w) (natives : Natives σ) :
    request.run { env with natives := natives } w = request.run env w := by
  cases request with
  | call f args =>
    have hcall := call_eq_of_not_native env.hooks natives env.natives env.evaluator h args
    simp only [run, bind, EStateM.bind, hcall]
  | _ => rfl

/-! ## Guards and loans -/

section Guards

variable {gs : List Guard} {w : World σ} {i : ObjId} {o : Object}

theorem Exact.unwritten (he : Exact gs w.heap)
    (hread : ∀ g ∈ gs, ∀ i, g.held = some i → g.access = .read) : w.heap.Unwritten := by
  intro i o ho hl
  have htally := he.loans i o ho
  rw [hl] at htally
  have hmem : { held := some i, access := .write } ∈ gs :=
    List.one_le_count_iff.1 (Nat.le_of_eq htally.2.symm)
  cases hread _ hmem i rfl

/-- Where all guards are readers, an object is lent just if there is a guard for it. -/
theorem Exact.ne_free_iff (he : Exact gs w.heap)
    (hread : ∀ g ∈ gs, ∀ i, g.held = some i → g.access = .read) (ho : w.heap.get? i = some o) :
    o.loan ≠ .free ↔ ∃ g ∈ gs, g.held = some i := by
  have htally := he.loans i o ho
  cases hl : o.loan with
  | exclusive => exact absurd hl (he.unwritten hread i o ho)
  | shared readers =>
    rw [hl] at htally
    have hpos : Loan.shared readers ≠ .free ↔ 0 < Guard.tally gs i .read := by
      rw [htally.1, Nat.pos_iff_ne_zero]
      simp [Loan.free]
    rw [hpos, Guard.tally, List.count_pos_iff]
    constructor
    · exact fun hmem => ⟨_, hmem, rfl⟩
    · rintro ⟨⟨held, access⟩, hmem, rfl⟩
      have haccess : access = .read := hread _ hmem i rfl
      rwa [← haccess]

end Guards

theorem Request.mem_operands_of_receiver? {request : Request} {a : Ref}
    (h : request.receiver? = some a) : a ∈ request.operands := by
  cases request with
  | binary verb => cases verb <;> cases h; exact List.mem_cons_self
  | unary verb => cases verb <;> cases h; exact List.mem_cons_self
  | store | bindAttribute | unbindAttribute => cases h; exact List.mem_cons_self
  | _ => cases h

/-! ## Answers -/

/-- **Guards never change an answer.** Without hooks and native code, an operation that
    is not left for a conflict between loans ends as it does with no guard around, and
    leaves the same world but for who has the objects. And where all guards are readers,
    what only reads never conflicts, and what writes, given objects, conflicts just if
    there is a guard for its receiver. -/
theorem guards_never_change_answers {env : Environment σ} (hhooks : env.hooks = {}) :
    (∀ (w : World σ) (request : Request), request.CallsNoNative w →
      (∀ evaluator, env.evaluator = some evaluator →
        ∀ f args, Transparent (evaluator.run f args)) →
      match request.run env w with
      | .ok r w' => ∃ v, request.run env w.unlent = .ok r v ∧ v.unlent = w'.unlent
      | .error e w' => e.isLoanConflict = true ∨
          ∃ v, request.run env w.unlent = .error e v ∧ v.unlent = w'.unlent) ∧
    ∀ (gs : List Guard) (w : World σ), Exact gs w.heap →
      (∀ g ∈ gs, ∀ i, g.held = some i → g.access = .read) → w.heap.Founded →
      (∀ request : Request, request.Reads → ¬Conflicts (request.run env) w) ∧
      ∀ (request : Request) (a : Ref), request.receiver? = some a →
        (∀ r ∈ request.operands, (r.bind w.heap.get?).isSome) →
        (Conflicts (request.run env) w ↔ ∃ g ∈ gs, g.held = a) := by
  constructor
  · intro w request hnative hevaluator
    -- native code is not entered, so it may as well be what is sure to be transparent
    let quiet : Environment σ :=
      { env with natives := fun _ _ _ => Action.abort .nativeWithoutTarget }
    have hquiet : quiet.Within Transparent := by
      refine ⟨?_, fun _ _ _ _ => .abort _, hevaluator⟩
      show env.hooks.Within Transparent
      rw [hhooks]
      exact Hooks.within_none Transparent
    have hrun : ∀ u : World σ, request.CallsNoNative u → request.run quiet u = request.run env u :=
      fun u hu => Request.run_eq_of_not_native hu _
    have h := (Request.procedure hquiet request).transparent (fun hx => hx) w.unlent w
      w.unlent_lighter
    rw [hrun w hnative, hrun w.unlent hnative.unlent] at h
    cases hw : request.run env w with
    | ok r w' =>
      rw [hw] at h
      obtain ⟨v, hv, hl⟩ := h
      exact ⟨v, hv, hl.unlent_eq⟩
    | error e w' =>
      rw [hw] at h
      exact h.imp_right fun ⟨v, hv, hl⟩ => ⟨v, hv, hl.unlent_eq⟩
  · intro gs w he hread hf
    have hu := he.unwritten hread
    refine ⟨fun request hreads => ?_, fun request a hr hops => ?_⟩
    · have hwithin : env.hooks.Within Quiet := by
        rw [hhooks]
        exact Hooks.within_none Quiet
      exact ((Request.procedure_of_reads hwithin hreads).quiet (fun hx => hx) w hu).1
    · have hh : env.hooks.Returns := by
        rw [hhooks]
        nofun
      have hlive := hops a (Request.mem_operands_of_receiver? hr)
      obtain ⟨o, ho⟩ := Option.isSome_iff_exists.1 hlive
      obtain ⟨i, rfl, hi⟩ := Option.bind_eq_some_iff.1 ho
      rw [Request.conflicts_iff_of_receiver hh hu hf hr hi hops, he.ne_free_iff hread hi]

/-- A host whose evaluator takes every program for one that returns None. -/
def returningNone : Environment (Hands Unit) where
  evaluator := some { run := fun _ _ => succeedNone }

/-- The function that the host of a new engine makes. -/
def firstId : ObjId := ⟨Heap.initial.size⟩

/-- The state in which a host has made a function and has a guard for it. -/
def readFunction : World (Hands Unit) :=
  (do
    let f ← make (some (.function (some { serial := 0, bytes := [] }))) none
    Hands.take .read (some f) : Action (Hands Unit) Unit).after (.initial { own := () })

theorem reached_readFunction : Reached readFunction :=
  .step (.start ()) (.bind (.make _ _) fun _ => .take _ _)

theorem founded_readFunction : readFunction.heap.Founded := Heap.founded_of_kind (by decide)

/-- With a reader around, the function is called as without one and has no length, and
    nothing can be appended to it. -/
theorem guards_never_change_answers_readFunction :
    (∃ v, (Request.call (some firstId) []).run returningNone readFunction.unlent =
      .ok (.outcome (.success noneId)) v) ∧
    ¬Conflicts ((Request.unary .length (some firstId)).run returningNone) readFunction ∧
    Conflicts ((Request.binary .append (some firstId) (some noneId)).run returningNone)
      readFunction := by
  have henv : returningNone.hooks = {} := rfl
  obtain ⟨hsame, hreaders⟩ := guards_never_change_answers henv
  have hread : ∀ g ∈ readFunction.host.guards, ∀ i, g.held = some i → g.access = .read := by
    intro g hg i _
    have hg' : g = { held := some firstId, access := .read } := List.mem_singleton.1 hg
    rw [hg']
  have hnative : (Request.call (some firstId) []).CallsNoNative readFunction := by
    rintro i o ⟨⟩ ho target
    have hkind : ∀ o, readFunction.heap.get? firstId = some o → o.kind ≠ .nativeFunction := by
      decide
    intro hp
    exact hkind o ho (by rw [Object.kind, hp]; rfl)
  have hevaluator : ∀ evaluator, returningNone.evaluator = some evaluator →
      ∀ f args, Transparent (evaluator.run f args) := by
    rintro _ ⟨⟩ f args
    exact .pure _
  obtain ⟨hquiet, hwrites⟩ := hreaders readFunction.host.guards readFunction
    reached_readFunction.exact hread founded_readFunction
  refine ⟨?_, hquiet (.unary .length (some firstId)) trivial, ?_⟩
  · obtain ⟨v, hv, -⟩ := hsame readFunction (.call (some firstId) []) hnative hevaluator
    exact ⟨v, hv⟩
  · refine (hwrites (.binary .append (some firstId) (some noneId)) (some firstId) rfl ?_).2
      ⟨{ held := some firstId, access := .read }, List.mem_singleton.2 rfl, rfl⟩
    decide

end ValueEngine

/-
  Value engine — the loans that operations need.

  What only reads can do with readers around. What writes needs the object that it
  changes for itself, and nothing else: whatever it reads besides it gives back before,
  or reads while others may read it too.

  * `Conflicts`: a run that is left for a conflict between loans.
  * `Quiet`: actions that never conflict where nobody writes.
  * `Request.receiver?`, `Request.operands`: what a request changes and what it is given.
  * `Request.conflicts_iff_of_receiver`: what writes conflicts just if its receiver is
    lent.
-/
import ValueEngine.Proofs.Loans.Transparency
import ValueEngine.Proofs.Procedure.Lending

namespace ValueEngine

variable {σ α β : Type}

/-- A run that is left for a conflict between loans. -/
def Conflicts (x : Action σ α) (w : World σ) : Prop :=
  ∃ e w', x w = .error e w' ∧ e.isLoanConflict = true

theorem not_conflicts_of_ok {x : Action σ α} {w w' : World σ} {a : α} (h : x w = .ok a w') :
    ¬Conflicts x w := by
  rintro ⟨e, v, he, -⟩
  rw [h] at he
  cases he

theorem conflicts_of_error {x : Action σ α} {w w' : World σ} {e : Abort}
    (h : x w = .error e w') : Conflicts x w ↔ e.isLoanConflict = true := by
  constructor
  · rintro ⟨e', v, he, hc⟩
    rw [h] at he
    cases he
    exact hc
  · exact fun hc => ⟨e, w', h, hc⟩

/-- What follows a run and never conflicts itself does not matter. -/
theorem conflicts_bind_iff {x : Action σ α} {f : α → Action σ β} {w : World σ}
    (hf : ∀ a w', ¬Conflicts (f a) w') : Conflicts (x >>= f) w ↔ Conflicts x w := by
  cases hx : x w with
  | ok a w' =>
    have h := hf a w'
    have hbind : Conflicts (x >>= f) w ↔ Conflicts (f a) w' := by
      simp only [Conflicts, Action.bind_of_ok hx]
    exact iff_of_false (hbind.not.2 h) (not_conflicts_of_ok hx)
  | error e w' => rw [conflicts_of_error (Action.bind_of_error hx f), conflicts_of_error hx]

theorem not_conflicts_pure (a : α) (w : World σ) : ¬Conflicts (pure a : Action σ α) w :=
  not_conflicts_of_ok rfl

/-! ## Reading -/

/-- An action that never conflicts where nobody has an object for writing, and leaves it
    so. -/
def Quiet (x : Action σ α) : Prop :=
  ∀ w : World σ, w.heap.Unwritten → ¬Conflicts x w ∧ (x.after w).heap.Unwritten

namespace Quiet

theorem pure (a : α) : Quiet (Pure.pure a : Action σ α) := fun _ hu =>
  ⟨not_conflicts_of_ok rfl, hu⟩

theorem abort {e : Abort} (he : e.isLoanConflict = false) :
    Quiet (Action.abort e : Action σ α) := by
  refine fun w hu => ⟨?_, hu⟩
  rw [conflicts_of_error (Action.abort_apply e w), he]
  exact Bool.false_ne_true

theorem bind {x : Action σ α} {f : α → Action σ β} (hx : Quiet x) (hf : ∀ a, Quiet (f a)) :
    Quiet (x >>= f) := by
  intro w hu
  obtain ⟨hc, hu'⟩ := hx w hu
  cases hr : x w with
  | ok a w' =>
    rw [Action.after_of_ok hr] at hu'
    have h := hf a w' hu'
    simpa only [Conflicts, Action.after, Action.bind_of_ok hr] using h
  | error e w' =>
    rw [Action.after_of_error hr] at hu'
    rw [conflicts_of_error hr] at hc
    have hbind := Action.bind_of_error hr f
    rw [conflicts_of_error hbind, Action.after_of_error hbind]
    exact ⟨hc, hu'⟩

theorem modify {f : World σ → World σ}
    (hf : ∀ w : World σ, w.heap.Unwritten → (f w).heap.Unwritten) :
    Quiet (modify f : Action σ Unit) := fun w hu => ⟨not_conflicts_of_ok rfl, hf w hu⟩

/-- Readers do not stand in the way of readers. -/
theorem withRead {r : Ref} {body : ObjId → Object → Action σ α} (hb : ∀ i o, Quiet (body i o)) :
    Quiet (withRead r body) := by
  intro w hu
  cases hr : r.bind w.heap.get? with
  | none =>
    have hrun : ValueEngine.withRead r body w = .error .nullReference w := lend_of_dead hr
    rw [conflicts_of_error hrun, Action.after_of_error hrun]
    exact ⟨Bool.false_ne_true, hu⟩
  | some p =>
    obtain ⟨i, rfl, hi⟩ := Option.bind_eq_some_iff.1 hr
    obtain ⟨o, w₁, -, hw₁, -, hread⟩ :=
      World.Shows.withRead ⟨rfl, hu⟩ (Heap.contents_of_get? hi)
    obtain ⟨hc, hu'⟩ := hb i o w₁ hw₁.unwritten
    have hback : ∀ w' : World σ, w'.heap.Unwritten → (w'.endLoan .read i).heap.Unwritten :=
      fun w' h => (World.Shows.endLoan ⟨rfl, h⟩ i).unwritten
    cases hx : body i o w₁ with
    | ok a w' =>
      have hrun := hread body
      rw [hx] at hrun
      rw [Action.after_of_ok hx] at hu'
      rw [Action.after_of_ok hrun]
      exact ⟨not_conflicts_of_ok hrun, hback w' hu'⟩
    | error e w' =>
      have hrun := hread body
      rw [hx] at hrun
      rw [Action.after_of_error hx] at hu'
      rw [conflicts_of_error hx] at hc
      rw [conflicts_of_error hrun, Action.after_of_error hrun]
      exact ⟨hc, hback w' hu'⟩

theorem peek (r : Ref) : Quiet (peek r : Action σ Object) := withRead fun _ o => pure o

theorem fresh (payload : Payload) : Quiet (fresh payload : Action σ ObjId) := by
  unfold ValueEngine.fresh
  split
  · rename_i e he
    exact abort (Payload.isLoanConflict_of_missingPart? he)
  · exact fun w hu => ⟨not_conflicts_of_ok rfl, hu.allocate nofun⟩

end Quiet

/-- **What only reads is quiet** if the host code that it enters is. -/
theorem Procedure.quiet {foreign : ∀ {α : Type}, Action σ α → Prop}
    (hforeign : ∀ {α : Type} {x : Action σ α}, foreign x → Quiet x) {x : Action σ α}
    (h : Procedure foreign False x) : Quiet x := by
  induction h with
  | pure a => exact .pure a
  | abort e he => exact .abort he
  | bind _ _ ihx ihf => exact ihx.bind ihf
  | @lend _ access _ _ haccess _ _ ih =>
    cases access with
    | read => exact .withRead ih
    | write => exact (haccess rfl).elim
  | peek _ _ ih => exact (Quiet.peek _).bind ih
  | size _ ih => exact fun w hu => ih w.heap.size w hu
  | textLimit _ ih => exact fun w hu => ih w.settings.textLimit w hu
  | trace level message => exact .modify fun w hu => by rwa [World.heap_traced]
  | fresh _ => exact .fresh _
  | iterator _ _ _ ih =>
    refine (Quiet.peek _).bind fun o => ?_
    split
    · exact (Quiet.fresh _).bind fun _ => .pure _
    · exact ih o
  | change hw _ _ => exact hw.elim
  | foreign hx => exact hforeign hx

/-! ## Writing -/

section Writing

variable {w : World σ} {i : ObjId} {o : Object}

/-- What wants an object for itself conflicts just if the object is lent, provided that
    nothing goes wrong with it later. -/
theorem conflicts_withWrite_iff {body : ObjId → Object → Action σ α} (ho : w.heap.get? i = some o)
    (hbody : ¬Conflicts (body i { o with loan := .exclusive })
      { w with heap := w.heap.set i { o with loan := .exclusive } }) :
    Conflicts (withWrite (some i) body) w ↔ o.loan ≠ .free := by
  cases hl : Access.write.acquire o.loan with
  | error e =>
    have hrun : withWrite (some i) body w = .error e w := lend_of_refused ho hl
    rw [conflicts_of_error hrun, Access.isLoanConflict_of_acquire hl]
    refine iff_of_true rfl fun hfree => ?_
    rw [hfree] at hl
    cases hl
  | ok m =>
    have hfree : o.loan = .free := Access.acquire_write_eq_ok_iff.1 ⟨m, hl⟩
    have hm : m = .exclusive := by
      rw [hfree] at hl
      cases hl
      rfl
    subst hm
    refine iff_of_false ?_ (not_not.2 hfree)
    have hrun : withWrite (some i) body w = _ := lend_of_granted ho hl
    cases hb : body i { o with loan := .exclusive }
        { w with heap := w.heap.set i { o with loan := .exclusive } } with
    | ok a w' =>
      rw [hb] at hrun
      exact not_conflicts_of_ok hrun
    | error e w' =>
      rw [hb] at hrun
      rwa [conflicts_of_error hrun, ← conflicts_of_error hb]

theorem not_conflicts_withRead {r : Ref} {body : ObjId → Object → Action σ α}
    (hr : ∀ t p, r = some t → w.heap.get? t = some p → p.loan ≠ .exclusive)
    (hb : ∀ i o w', ¬Conflicts (body i o) w') : ¬Conflicts (withRead r body) w := by
  cases hd : r.bind w.heap.get? with
  | none =>
    have hrun : withRead r body w = .error .nullReference w := lend_of_dead hd
    rw [conflicts_of_error hrun]
    exact Bool.false_ne_true
  | some p =>
    obtain ⟨t, rfl, ht⟩ := Option.bind_eq_some_iff.1 hd
    obtain ⟨m, hm⟩ := Access.acquire_read_eq_ok_iff.2 (hr t p rfl ht)
    have hrun : withRead (some t) body w = _ := lend_of_granted ht hm
    have hc := hb t { p with loan := m } { w with heap := w.heap.set t { p with loan := m } }
    cases hx : body t { p with loan := m } { w with heap := w.heap.set t { p with loan := m } } with
    | ok a w' =>
      rw [hx] at hrun
      exact not_conflicts_of_ok hrun
    | error e w' =>
      rw [hx] at hrun
      rw [conflicts_of_error hx] at hc
      rwa [conflicts_of_error hrun]

variable {hooks : Hooks σ} (hh : hooks.Returns)
include hh

theorem not_conflicts_fail (cause : Failure) (w : World σ) : ¬Conflicts (fail hooks cause) w := by
  obtain ⟨w', hw'⟩ := fail_eq_ok hh cause w
  exact not_conflicts_of_ok hw'

theorem not_conflicts_replaceOrFail (i : ObjId) (payload : Except Failure Payload) (w : World σ) :
    ¬Conflicts (replaceOrFail hooks i payload) w := by
  cases payload with
  | ok payload => exact not_conflicts_of_ok rfl
  | error cause => exact not_conflicts_fail hh cause w

theorem conflicts_append_iff (ho : w.heap.get? i = some o) (value : ObjId) :
    Conflicts (Ref.append hooks (some i) (some value)) w ↔ o.loan ≠ .free :=
  conflicts_withWrite_iff ho (not_conflicts_replaceOrFail hh _ _ _)

theorem conflicts_store_iff (hu : w.heap.Unwritten) (ho : w.heap.get? i = some o) {key : ObjId}
    {k : Object} (hk : w.heap.get? key = some k) (value : ObjId) :
    Conflicts (Ref.store hooks (some i) (some key) (some value)) w ↔ o.loan ≠ .free := by
  obtain ⟨loan, hp⟩ := peek_of_unwritten hu hk
  have hrun : Ref.store hooks (some i) (some key) (some value) w = withWrite (some i)
      (fun i collection =>
        replaceOrFail hooks i (collection.payload.stored? k.payload (some value)))
      w := Action.bind_of_ok hp _
  rw [Conflicts, hrun]
  exact conflicts_withWrite_iff ho (not_conflicts_replaceOrFail hh _ _ _)

omit hh in
theorem not_conflicts_stepOutcome (element : Option Ref) (w : World σ) :
    ¬Conflicts (stepOutcome element : Action σ Outcome) w := by
  match element with
  | none => exact not_conflicts_of_ok rfl
  | some (some _) => exact not_conflicts_of_ok rfl
  | some none =>
    have hrun : (stepOutcome (some none) : Action σ Outcome) w = .error .nullSuccess w := rfl
    rw [conflicts_of_error hrun]
    exact Bool.false_ne_true

theorem conflicts_next_iff (hu : w.heap.Unwritten) (hf : w.heap.Founded)
    (ho : w.heap.get? i = some o) :
    Conflicts (Ref.next hooks (some i)) w ↔ o.loan ≠ .free := by
  refine conflicts_withWrite_iff ho ?_
  cases hp : o.payload with
  | iterator cursor =>
    -- the target is another object, so the iterator itself is not in the way
    simp only
    refine not_conflicts_withRead (fun t p ht hp' => ?_) fun t p w' => ?_
    · have hti : t ≠ i := by
        rintro rfl
        exact hf t cursor (by rw [Heap.contents_of_get? ho, hp]) ht
      rw [Heap.get?_set_of_ne hti] at hp'
      exact hu t p hp'
    · cases p.payload.elements? with
      | none => exact not_conflicts_fail hh _ _
      | some elements =>
        have hset : ∀ f w', ¬Conflicts (Action.updateObject i f : Action σ Unit) w' :=
          fun _ _ => not_conflicts_of_ok rfl
        exact (conflicts_bind_iff fun _ => not_conflicts_stepOutcome _).not.2 (hset _ _)
  | _ =>
    simp only
    exact not_conflicts_fail hh _ _

omit hh in
theorem conflicts_bindAttribute_iff (ho : w.heap.get? i = some o) (name : Bytes) (value : Ref) :
    Conflicts (Ref.bindAttribute (some i) name value) w ↔ o.loan ≠ .free := by
  refine conflicts_withWrite_iff ho ?_
  cases value with
  | some value => exact not_conflicts_of_ok rfl
  | none =>
    have hrun : ∀ w : World σ, bindOwn i name none w = .error .nullAttribute w := fun _ => rfl
    rw [conflicts_of_error (hrun _)]
    exact Bool.false_ne_true

theorem conflicts_unbindAttribute_iff (ho : w.heap.get? i = some o) (name : Bytes) :
    Conflicts (Ref.unbindAttribute hooks (some i) name) w ↔ o.loan ≠ .free := by
  unfold Ref.unbindAttribute
  refine (conflicts_bind_iff fun missing w' => ?_).trans (conflicts_withWrite_iff ho ?_)
  · cases missing with
    | none => exact not_conflicts_of_ok rfl
    | some kind => exact not_conflicts_fail hh _ _
  · split <;> exact not_conflicts_of_ok rfl

end Writing

/-! ## Requests -/

namespace Request

/-- What a request changes, if it is one that changes something. -/
def receiver? : Request → Option Ref
  | binary .append a _ | unary .next a | store a _ _ => some a
  | bindAttribute a _ _ | unbindAttribute a _ => some a
  | _ => none

/-- The references that a request is given. -/
def operands : Request → List Ref
  | binary _ a b => [a, b]
  | unary _ a | readAttribute a _ | knows a _ | unbindAttribute a _ | text a | truth a => [a]
  | store a key value => [a, key, value]
  | bindAttribute a _ value => [a, value]
  | call f args => f :: args

variable {env : Environment σ} {w : World σ}

/-- **What writes conflicts just if its receiver is lent.** -/
theorem conflicts_iff_of_receiver (hh : env.hooks.Returns) (hu : w.heap.Unwritten)
    (hf : w.heap.Founded) {request : Request} {i : ObjId} {o : Object}
    (hr : request.receiver? = some (some i)) (ho : w.heap.get? i = some o)
    (hops : ∀ r ∈ request.operands, (r.bind w.heap.get?).isSome) :
    Conflicts (request.run env) w ↔ o.loan ≠ .free := by
  have hlive : ∀ r ∈ request.operands, ∃ k p, r = some k ∧ w.heap.get? k = some p := by
    intro r hmem
    obtain ⟨p, hp⟩ := Option.isSome_iff_exists.1 (hops r hmem)
    obtain ⟨k, hk, hkp⟩ := Option.bind_eq_some_iff.1 hp
    exact ⟨k, p, hk, hkp⟩
  have hmap : ∀ {α : Type} {x : Action σ α} {f : α → Response},
      Conflicts (do return f (← x)) w ↔ Conflicts x w :=
    conflicts_bind_iff fun _ => not_conflicts_pure _
  cases request with
  | binary verb a b =>
    cases verb <;> cases hr
    obtain ⟨k, p, rfl, -⟩ := hlive b (by simp [operands])
    exact hmap.trans (conflicts_append_iff hh ho k)
  | unary verb a =>
    cases verb <;> cases hr
    exact hmap.trans (conflicts_next_iff hh hu hf ho)
  | store a key value =>
    cases hr
    obtain ⟨k, p, rfl, hk⟩ := hlive key (by simp [operands])
    obtain ⟨v, q, rfl, -⟩ := hlive value (by simp [operands])
    exact hmap.trans (conflicts_store_iff hh hu ho hk v)
  | bindAttribute a name value =>
    cases hr
    exact (conflicts_bind_iff fun _ => not_conflicts_pure _).trans
      (conflicts_bindAttribute_iff ho name value)
  | unbindAttribute a name =>
    cases hr
    exact hmap.trans (conflicts_unbindAttribute_iff hh ho name)
  | _ => cases hr

end Request

end ValueEngine

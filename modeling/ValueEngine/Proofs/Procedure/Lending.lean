/-
  Value engine — worlds in which an object is lent.

  An action that is lent an object runs in a world that differs from the one before in
  the loan of that object. When the loan ends, what it did to the objects is what it
  would have done without.

  * `World.lent`, `World.edited`: worlds with another loan, and with a changed object.
  * `World.endLoan_lent`, `still_lent`, `World.endLoan_edited`: the end of a loan undoes
    its beginning, and leaves a change that was made meanwhile.
  * `lend_of_ok`, `lend_of_error`, `lend_congr`, `withRead_congr`: what lending comes to.
  * `withRead_comm`: two objects are lent for reading in either order.
  * `peek_cases`, `fail_still`: to look at an object and to fail change none.
-/
import ValueEngine.Proofs.Procedure.Frame
import ValueEngine.Proofs.Reading.Showing

namespace ValueEngine

variable {σ : Type} {hooks : Hooks σ} {w v v' : World σ} {i j t : ObjId} {o p : Object}
  {access : Access} {l : Loan}

/-- The world in which an object has another loan. -/
def World.lent (i : ObjId) (o : Object) (loan : Loan) (w : World σ) : World σ :=
  { w with heap := w.heap.set i { o with loan := loan } }

/-- The world in which an object is changed. -/
def World.edited (j : ObjId) (f : Object → Object) (w : World σ) : World σ :=
  { w with heap := w.heap.update j f }

/-- A change of objects that does not depend on who has them, and leaves that alone. -/
def LoanBlind (f : Object → Object) : Prop :=
  ∀ o loan, f { o with loan := loan } = { f o with loan := loan }

theorem LoanBlind.loan {f : Object → Object} (hf : LoanBlind f) (o : Object) :
    (f o).loan = o.loan := by
  have h : f o = { f o with loan := o.loan } := hf o o.loan
  rw [h]

/-! ## A loan and its end -/

theorem World.get?_lent_of_ne (hp : w.heap.get? t = some p) (hne : i ≠ t) (loan : Loan) :
    (w.lent i o loan).heap.get? t = some p := (Heap.get?_set_of_ne hne.symm _).trans hp

theorem World.get?_lent_self (ho : w.heap.get? i = some o) (loan : Loan) :
    (w.lent i o loan).heap.get? i = some { o with loan := loan } :=
  Heap.get?_set_self (Heap.lt_size_of_get? ho) _

/-- Loans do not show in what objects hold. -/
theorem World.contents_lent (ho : w.heap.get? i = some o) (loan : Loan) :
    (w.lent i o loan).heap.contents = w.heap.contents := Heap.contents_set ho rfl

@[simp] theorem World.size_endLoan (access : Access) (i : ObjId) (w : World σ) :
    (w.endLoan access i).heap.size = w.heap.size := Heap.size_update ..

@[simp] theorem World.contents_endLoan (access : Access) (i : ObjId) (w : World σ) :
    (w.endLoan access i).heap.contents = w.heap.contents :=
  Heap.contents_update_of_payload _ _ fun _ => rfl

theorem Still.endLoan (h : Still v v') : Still (v.endLoan access i) (v'.endLoan access i) :=
  congrArg (fun heap : Heap => heap.update i fun o => { o with loan := access.release o.loan }) h

section Lent

variable (ho : w.heap.get? i = some o) (hl : access.acquire o.loan = .ok l)
include ho hl

theorem World.endLoan_lent : (w.lent i o l).endLoan access i = w := by
  have hback : (w.heap.set i { o with loan := l }).update i
      (fun o => { o with loan := access.release o.loan }) = w.heap :=
    Heap.update_set ho (by simp [Access.release_of_acquire hl])
  rw [World.endLoan, World.lent, hback]

/-- What changes no object while one is lent has changed none when it is given back. -/
theorem still_lent (hv : Still (w.lent i o l) v) : Still w (v.endLoan access i) := by
  have h : Still ((w.lent i o l).endLoan access i) (v.endLoan access i) := hv.endLoan
  rwa [World.endLoan_lent ho hl] at h

/-- A loan that is given and ended again leaves no trace beside a change of any object,
    be it the one that is lent. -/
theorem World.endLoan_edited {f : Object → Object} (hf : LoanBlind f) :
    ((w.lent i o l).edited j f).endLoan access i = w.edited j f := by
  have hi := Heap.lt_size_of_get? ho
  have hheap : ((w.heap.set i { o with loan := l }).update j f).update i
      (fun o => { o with loan := access.release o.loan }) = w.heap.update j f := by
    refine Heap.ext_get? (by simp) fun k => ?_
    by_cases hki : k = i
    · subst hki
      rw [Heap.get?_update_self]
      by_cases hkj : k = j
      · subst hkj
        rw [Heap.get?_update_self, Heap.get?_set_self hi, Heap.get?_update_self, ho]
        simp only [Option.map_some, hf o l, Access.release_of_acquire hl, ← hf.loan o]
      · rw [Heap.get?_update_of_ne hkj, Heap.get?_set_self hi, Heap.get?_update_of_ne hkj, ho]
        simp only [Option.map_some, Access.release_of_acquire hl]
    · rw [Heap.get?_update_of_ne hki]
      by_cases hkj : k = j
      · subst hkj
        rw [Heap.get?_update_self, Heap.get?_set_of_ne hki, Heap.get?_update_self]
      · rw [Heap.get?_update_of_ne hkj, Heap.get?_set_of_ne hki, Heap.get?_update_of_ne hkj]
  rw [World.endLoan, World.edited, World.lent, hheap, World.edited]

variable {α : Type} {body : ObjId → Object → Action σ α}

theorem lend_of_ok {a : α} (h : body i { o with loan := l } (w.lent i o l) = .ok a v) :
    lend access (some i) body w = .ok a (v.endLoan access i) := by
  simp only [lend, takeLoan_of_granted ho hl]
  rw [World.lent] at h
  rw [h]

theorem lend_of_error {e : Abort} (h : body i { o with loan := l } (w.lent i o l) = .error e v) :
    lend access (some i) body w = .error e (v.endLoan access i) := by
  simp only [lend, takeLoan_of_granted ho hl]
  rw [World.lent] at h
  rw [h]

end Lent

/-- Only what is done with the object that is there matters, in the world in which it is
    lent. -/
theorem lend_congr_at {α : Type} {body body' : ObjId → Object → Action σ α}
    (ho : w.heap.get? i = some o)
    (h : ∀ l, access.acquire o.loan = .ok l →
      body i { o with loan := l } (w.lent i o l) = body' i { o with loan := l } (w.lent i o l)) :
    lend access (some i) body w = lend access (some i) body' w := by
  cases hl : access.acquire o.loan with
  | error e => rw [lend_of_refused ho hl, lend_of_refused ho hl]
  | ok l =>
    have heq := h l hl
    unfold World.lent at heq
    rw [lend_of_granted ho hl, lend_of_granted ho hl, heq]

/-- Only what is done with the object that is there matters. -/
theorem lend_congr {α : Type} {body body' : ObjId → Object → Action σ α}
    (ho : w.heap.get? i = some o)
    (h : ∀ l, body i { o with loan := l } = body' i { o with loan := l }) :
    lend access (some i) body w = lend access (some i) body' w :=
  lend_congr_at ho fun l _ => congrFun (h l) _

/-- Only what is done with an object that is there matters, in worlds that hold the same. -/
theorem withRead_congr {α : Type} {r : Ref} {body body' : ObjId → Object → Action σ α}
    (h : ∀ k x v, r = some k → v.heap.contents = w.heap.contents →
      w.heap.contents k = some x.payload → body k x v = body' k x v) :
    withRead r body w = withRead r body' w := by
  cases r with
  | none => rfl
  | some k =>
    cases hk : w.heap.get? k with
    | none =>
      have hdead : (some k : Ref).bind w.heap.get? = none := hk
      exact (lend_of_dead hdead).trans (lend_of_dead hdead).symm
    | some o =>
      refine lend_congr_at hk fun loan _ => ?_
      refine h k _ _ rfl (World.contents_lent hk loan) ?_
      rw [Heap.contents_of_get? hk]

/-! ## Two loans -/

section TwoLoans

variable {m : Loan} {α : Type}

theorem Heap.update_comm {f g : Object → Object} (hij : i ≠ j) (h : Heap) :
    (h.update i f).update j g = (h.update j g).update i f := by
  refine ext_get? (by simp) fun k => ?_
  by_cases hki : k = i
  · subst hki
    simp only [get?_update_self, get?_update_of_ne hij]
  · by_cases hkj : k = j
    · subst hkj
      simp only [get?_update_self, get?_update_of_ne hki]
    · simp only [get?_update_of_ne hki, get?_update_of_ne hkj]

theorem Heap.set_comm (hij : i ≠ j) (h : Heap) (o p : Object) :
    (h.set i o).set j p = (h.set j p).set i o := by
  have hne : i.index ≠ j.index := fun h => hij (congrArg ObjId.mk h)
  exact congrArg Heap.mk (Array.setIfInBounds_comm _ _ hne)

theorem World.lent_comm (hij : i ≠ j) (w : World σ) :
    (w.lent i o l).lent j p m = (w.lent j p m).lent i o l := by
  simp only [lent, Heap.set_comm hij]

theorem World.endLoan_comm (w : World σ) :
    (w.endLoan access i).endLoan access j = (w.endLoan access j).endLoan access i := by
  by_cases hij : i = j
  · rw [hij]
  · simp only [endLoan, Heap.update_comm hij]

/-- What is done while two objects are lent. -/
theorem withRead_withRead (hij : i ≠ j) (ho : w.heap.get? i = some o)
    (hp : w.heap.get? j = some p) (hl : Access.read.acquire o.loan = .ok l)
    (hm : Access.read.acquire p.loan = .ok m) (body : Action σ α) :
    (withRead (some i) fun _ _ => withRead (some j) fun _ _ => body) w =
      match body ((w.lent i o l).lent j p m) with
      | .ok a v => .ok a ((v.endLoan .read j).endLoan .read i)
      | .error e v => .error e ((v.endLoan .read j).endLoan .read i) := by
  have hp' : (w.lent i o l).heap.get? j = some p := World.get?_lent_of_ne hp hij l
  cases hbody : body ((w.lent i o l).lent j p m) with
  | ok a v => exact lend_of_ok ho hl (lend_of_ok hp' hm hbody)
  | error e v => exact lend_of_error ho hl (lend_of_error hp' hm hbody)

/-- **Two objects that nobody writes are lent for reading in either order.** -/
theorem withRead_comm (ho : w.heap.get? i = some o) (hp : w.heap.get? j = some p)
    (huo : o.loan ≠ .exclusive) (hup : p.loan ≠ .exclusive) (body : Action σ α) :
    (withRead (some i) fun _ _ => withRead (some j) fun _ _ => body) w =
      (withRead (some j) fun _ _ => withRead (some i) fun _ _ => body) w := by
  by_cases hij : i = j
  · rw [hij]
  · obtain ⟨l, hl⟩ := Access.acquire_read_eq_ok_iff.2 huo
    obtain ⟨m, hm⟩ := Access.acquire_read_eq_ok_iff.2 hup
    rw [withRead_withRead hij ho hp hl hm, withRead_withRead (Ne.symm hij) hp ho hm hl,
      World.lent_comm hij]
    cases body ((w.lent j p m).lent i o l) <;> simp only [World.endLoan_comm (i := i)]

end TwoLoans

/-! ## Looking -/

/-- An object that nobody writes can be looked at. -/
theorem peek_of_unwritten (hu : w.heap.Unwritten) (ho : w.heap.get? i = some o) :
    ∃ loan, peek (some i) w = .ok { o with loan := loan } w := by
  obtain ⟨loan, hl⟩ := Access.acquire_read_eq_ok_iff.2 (hu i o ho)
  exact ⟨loan, peek_of_granted ho hl⟩

/-- To look at an object changes nothing, be it refused or not. -/
theorem peek_cases (r : Ref) (w : World σ) :
    (∃ e, peek r w = .error e w) ∨
      ∃ i o loan, r = some i ∧ w.heap.get? i = some o ∧
        peek r w = .ok { o with loan := loan } w := by
  unfold peek withRead
  cases hr : r.bind w.heap.get? with
  | none => exact .inl ⟨_, lend_of_dead hr⟩
  | some o =>
    obtain ⟨i, rfl, ho⟩ := Option.bind_eq_some_iff.1 hr
    cases hl : Access.read.acquire o.loan with
    | error e => exact .inl ⟨e, lend_of_refused ho hl⟩
    | ok loan => exact .inr ⟨i, o, loan, rfl, ho, peek_of_granted ho hl⟩

/-! ## Failing -/

/-- To fail changes no object, unless the host does, and ends in the failure, unless the
    host aborts. -/
theorem fail_still (hh : hooks.Within (Action.Leads Still)) (cause : Failure) (w : World σ) :
    ∃ w', Still w w' ∧ (fail hooks cause w = .ok (.failure cause) w' ∨
      ¬hooks.Returns ∧ ∃ e, fail hooks cause w = .error e w') := by
  have hreport : Still w ((report hooks cause).after w) := by
    have htraced : Still w (w.traced failureLevel cause.text) := World.heap_traced ..
    cases hf : hooks.onFailure with
    | none =>
      have hrun : report hooks cause w = .ok () (w.traced failureLevel cause.text) := by
        simp only [report, hf]
        rfl
      rwa [Action.after_of_ok hrun]
    | some hook =>
      have hrun : report hooks cause w = hook cause (w.traced failureLevel cause.text) := by
        simp only [report, hf]
        rfl
      have hhook := hh.onFailure hook hf cause (w.traced failureLevel cause.text)
      simp only [Action.after, hrun] at hhook ⊢
      exact hhook.trans htraced
  refine ⟨_, hreport, ?_⟩
  cases hr : report hooks cause w with
  | ok u w' =>
    rw [Action.after_of_ok hr]
    exact .inl (Action.bind_of_ok hr _)
  | error e w' =>
    rw [Action.after_of_error hr]
    refine .inr ⟨fun hreturns => ?_, e, Action.bind_of_error hr _⟩
    obtain ⟨w'', h⟩ := report_eq_ok hreturns cause w
    rw [h] at hr
    cases hr

end ValueEngine

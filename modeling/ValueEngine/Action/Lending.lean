/-
  Value engine — lending objects to actions.

  * `takeLoan`: a single loan; one that is refused changes nothing
    (`takeLoan_error`).
  * `lend`: an object lent for the length of an action and given back on every way
    out.
  * `World.endLoan`: gives an object back.
  * `lend_of_granted`, `lend_of_refused`: what lending comes to.
-/
import ValueEngine.Action.Basic

namespace ValueEngine

variable {σ α : Type}

/-- Lends the object behind a reference. A reference to no live object is as good as
    null. -/
def takeLoan (access : Access) (r : Ref) : Action σ (ObjId × Object) := fun w =>
  match r with
  | none => .error .nullReference w
  | some i =>
    match w.heap.get? i with
    | none => .error .nullReference w
    | some o =>
      match access.acquire o.loan with
      | .error e => .error e w
      | .ok loan =>
        .ok (i, { o with loan := loan }) { w with heap := w.heap.set i { o with loan := loan } }

/-- The world after a loan of an object has ended. -/
def World.endLoan (access : Access) (i : ObjId) (w : World σ) : World σ :=
  { w with heap := w.heap.update i fun o => { o with loan := access.release o.loan } }

/-- Runs an action on the object behind a reference while it is lent, and gives it
    back however the action ends. -/
def lend (access : Access) (r : Ref) (body : ObjId → Object → Action σ α) : Action σ α := fun w =>
  match takeLoan access r w with
  | .error e w' => .error e w'
  | .ok (i, o) w' =>
    match body i o w' with
    | .ok a w'' => .ok a (w''.endLoan access i)
    | .error e w'' => .error e (w''.endLoan access i)

/-- Runs an action on the object behind a reference while it is lent for reading. -/
def withRead (r : Ref) (body : ObjId → Object → Action σ α) : Action σ α := lend .read r body

/-- Runs an action on the object behind a reference while it is lent for writing. -/
def withWrite (r : Ref) (body : ObjId → Object → Action σ α) : Action σ α := lend .write r body

/-- The object behind a reference, lent for reading and given back at once. -/
def peek (r : Ref) : Action σ Object := withRead r fun _ o => return o

/-! ## Taking a loan -/

section TakeLoan

variable {access : Access} {w w' : World σ} {i : ObjId} {o : Object}

@[simp] theorem takeLoan_none : takeLoan access none w = .error .nullReference w := rfl

theorem takeLoan_of_dead (hi : w.heap.get? i = none) :
    takeLoan access (some i) w = .error .nullReference w := by
  simp [takeLoan, hi]

theorem takeLoan_of_refused {e : Abort} (ho : w.heap.get? i = some o)
    (hl : access.acquire o.loan = .error e) : takeLoan access (some i) w = .error e w := by
  simp [takeLoan, ho, hl]

theorem takeLoan_of_granted {loan : Loan} (ho : w.heap.get? i = some o)
    (hl : access.acquire o.loan = .ok loan) :
    takeLoan access (some i) w =
      .ok (i, { o with loan := loan })
        { w with heap := w.heap.set i { o with loan := loan } } := by
  simp [takeLoan, ho, hl]

/-- A loan that is not given changes nothing. -/
theorem takeLoan_error {r : Ref} {e : Abort} (h : takeLoan access r w = .error e w') : w' = w := by
  unfold takeLoan at h
  split at h
  · cases h; rfl
  · split at h
    · cases h; rfl
    · split at h <;> cases h
      rfl

/-- A loan that is given is of a live object, which shows it. -/
theorem takeLoan_ok {r : Ref} (h : takeLoan access r w = .ok (i, o) w') :
    ∃ p loan, w.heap.get? i = some p ∧ access.acquire p.loan = .ok loan ∧
      o = { p with loan := loan } ∧
      w' = { w with heap := w.heap.set i { p with loan := loan } } := by
  unfold takeLoan at h
  split at h
  · cases h
  · rename_i j
    split at h
    · cases h
    · rename_i p hp
      split at h
      · cases h
      · rename_i loan hl
        cases h
        exact ⟨p, loan, hp, hl, rfl, rfl⟩

theorem ref_of_takeLoan {r : Ref} (h : takeLoan access r w = .ok (i, o) w') : r = some i := by
  unfold takeLoan at h
  split at h
  · cases h
  split at h
  · cases h
  split at h <;> cases h
  rfl

end TakeLoan

/-! ## Lending -/

section Lend

variable {access : Access} {w : World σ} {i : ObjId} {o : Object}
  {body : ObjId → Object → Action σ α}

@[simp] theorem lend_none : lend access none body w = .error .nullReference w := rfl

/-- Where there is no object there is nothing to lend. -/
theorem lend_of_dead {r : Ref} (hr : r.bind w.heap.get? = none) :
    lend access r body w = .error .nullReference w := by
  cases r with
  | none => rfl
  | some i =>
    have hi : w.heap.get? i = none := hr
    simp [lend, takeLoan_of_dead hi]

theorem lend_of_refused {e : Abort} (ho : w.heap.get? i = some o)
    (hl : access.acquire o.loan = .error e) : lend access (some i) body w = .error e w := by
  simp [lend, takeLoan_of_refused ho hl]

theorem lend_of_granted {loan : Loan} (ho : w.heap.get? i = some o)
    (hl : access.acquire o.loan = .ok loan) :
    lend access (some i) body w =
      match body i { o with loan := loan }
          { w with heap := w.heap.set i { o with loan := loan } } with
      | .ok a w' => .ok a (w'.endLoan access i)
      | .error e w' => .error e (w'.endLoan access i) := by
  simp only [lend, takeLoan_of_granted ho hl]

/-- Looking at an object leaves everything as it was. -/
theorem peek_of_granted {loan : Loan} (ho : w.heap.get? i = some o)
    (hl : Access.read.acquire o.loan = .ok loan) :
    peek (some i) w = .ok { o with loan := loan } w := by
  have hback : (w.heap.set i { o with loan := loan }).update i
      (fun o => { o with loan := Access.read.release o.loan }) = w.heap :=
    Heap.update_set ho (by simp [Access.release_of_acquire hl])
  rw [peek, withRead, lend_of_granted ho hl]
  exact congrArg (fun heap => EStateM.Result.ok _ { w with heap := heap }) hback

/-- What was looked at is an object, and stays one. -/
theorem live_of_peek {r : Ref} {w' : World σ} (h : peek r w = .ok o w') :
    ∃ i, r = some i ∧ (w'.heap.get? i).isSome := by
  unfold peek withRead at h
  cases hd : r.bind w.heap.get? with
  | none =>
    rw [lend_of_dead hd] at h
    cases h
  | some p =>
    obtain ⟨i, rfl, hp⟩ := Option.bind_eq_some_iff.1 hd
    cases hl : Access.read.acquire p.loan with
    | error e =>
      rw [lend_of_refused hp hl] at h
      cases h
    | ok m =>
      rw [lend_of_granted hp hl] at h
      cases h
      refine ⟨i, rfl, ?_⟩
      simp [World.endLoan, Heap.get?_update_self, Heap.get?_set_self (Heap.lt_size_of_get? hp)]

/-- However an action on a lent object ends, it is given back. -/
theorem after_lend {r : Ref} {w' : World σ} (h : takeLoan access r w = .ok (i, o) w') :
    (lend access r body).after w = ((body i o).after w').endLoan access i := by
  simp only [Action.after, lend, h]
  cases body i o w' <;> rfl

theorem after_lend_of_refused {r : Ref} {e : Abort} {w' : World σ}
    (h : takeLoan access r w = .error e w') : (lend access r body).after w = w' := by
  simp only [Action.after, lend, h]

end Lend

end ValueEngine

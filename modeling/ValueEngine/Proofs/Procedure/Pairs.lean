/-
  Value engine — two runs of one operation, side by side.

  Two worlds have the same identities, and under each of them objects of which one may
  stand for the other. What may stand for what is left open here. If whatever is given
  of an object is given of one that stands for it, and no step looks at what tells the
  two apart, then both runs do the same and leave worlds of the same sort.

  * `Heap.Paired`, `World.Paired`: heaps and worlds whose objects stand for one another.
  * `Pairing`: what has to hold of objects that stand for one another.
  * `Action.Matches`: actions that do the same in a world that stands for another.
  * `Action.Matches.bind`, `Action.Matches.lend`, …: the steps of a procedure.
-/
import ValueEngine.Proofs.Procedure.Basic

namespace ValueEngine

variable {σ α β : Type} {R : ObjId → Object → Object → Prop} {excused : Abort → Prop}

/-- A heap whose objects stand for those of another. -/
structure Heap.Paired (R : ObjId → Object → Object → Prop) (h' h : Heap) : Prop where
  size : h'.size = h.size
  objects : ∀ i, Option.Rel (R i) (h'.get? i) (h.get? i)

/-- A world whose objects stand for those of another, and which is otherwise the same. -/
structure World.Paired (R : ObjId → Object → Object → Prop) (v w : World σ) : Prop where
  heap : v.heap.Paired R w.heap
  settings : v.settings = w.settings
  trace : v.trace = w.trace
  host : v.host = w.host

namespace Heap.Paired

variable {h h' : Heap} {i : ObjId} {o : Object}

theorem refl (hrefl : ∀ i o, R i o o) (h : Heap) : h.Paired R h where
  size := rfl
  objects i := by
    cases h.get? i with
    | none => exact .none
    | some o => exact .some (hrefl i o)

theorem get? (hp : h'.Paired R h) (ho : h.get? i = some o) :
    ∃ p, h'.get? i = some p ∧ R i p o := by
  have hr := hp.objects i
  rw [ho] at hr
  cases hget : h'.get? i with
  | none => rw [hget] at hr; cases hr
  | some p =>
    rw [hget] at hr
    cases hr with
    | some hpo => exact ⟨p, rfl, hpo⟩

theorem get?_none (hp : h'.Paired R h) (ho : h.get? i = none) : h'.get? i = none := by
  have hr := hp.objects i
  rw [ho] at hr
  cases hget : h'.get? i with
  | none => rfl
  | some p => rw [hget] at hr; cases hr

/-- Changes after which objects still stand for one another. -/
theorem update (hp : h'.Paired R h) (i : ObjId) {f g : Object → Object}
    (hfg : ∀ p o, R i p o → R i (f p) (g o)) : (h'.update i f).Paired R (h.update i g) where
  size := by simpa using hp.size
  objects j := by
    have hr := hp.objects j
    by_cases hji : j = i
    · subst hji
      rw [get?_update_self, get?_update_self]
      revert hr
      cases h'.get? j <;> cases h.get? j <;> intro hr <;> cases hr
      · exact .none
      · rename_i hpo
        exact .some (hfg _ _ hpo)
    · rwa [get?_update_of_ne hji, get?_update_of_ne hji]

/-- A new object has the same identity in both. -/
theorem allocate_fst (hp : h'.Paired R h) (p o : Object) :
    (h'.allocate p).1 = (h.allocate o).1 := congrArg ObjId.mk hp.size

theorem allocate {p : Object} (hp : h'.Paired R h) (hpo : R (h.allocate o).1 p o) :
    (h'.allocate p).2.Paired R (h.allocate o).2 := by
  have hid := hp.allocate_fst p o
  refine ⟨?_, fun j => ?_⟩
  · have hsize := hp.size
    simp only [Heap.size] at hsize
    simp [Heap.allocate, Heap.size, hsize]
  · by_cases hj : j = (h.allocate o).1
    · have hj' : j = (h'.allocate p).1 := hj.trans hid.symm
      have hnew : (h.allocate o).2.get? j = some o := hj ▸ get?_allocate_self h o
      have hnew' : (h'.allocate p).2.get? j = some p := hj' ▸ get?_allocate_self h' p
      rw [hnew, hnew', hj]
      exact .some hpo
    · have hj' : j ≠ (h'.allocate p).1 := fun e => hj (e.trans hid)
      rw [get?_allocate_of_ne hj, get?_allocate_of_ne hj']
      exact hp.objects j

end Heap.Paired

/-- What has to hold of objects of which one may stand for the other: each stands for
    itself, what is given of the second is given of the first, what is refused is
    refused unless the abort is excused, and giving back leaves them such objects. -/
structure Pairing (R : ObjId → Object → Object → Prop) (excused : Abort → Prop) : Prop where
  refl : ∀ i o, R i o o
  grant : ∀ {access : Access} {i : ObjId} {p o : Object} {m : Loan}, R i p o →
    access.acquire o.loan = .ok m →
      ∃ m', access.acquire p.loan = .ok m' ∧ R i { p with loan := m' } { o with loan := m }
  refuse : ∀ {access : Access} {i : ObjId} {p o : Object} {e : Abort}, R i p o →
    access.acquire o.loan = .error e → excused e ∨ access.acquire p.loan = .error e
  release : ∀ (access : Access) {i : ObjId} {p o : Object}, R i p o →
    R i { p with loan := access.release p.loan } { o with loan := access.release o.loan }

/-- An action that does the same in a world that stands for another, unless it is left
    in the other for something that excuses it. -/
def Action.Matches (R : ObjId → Object → Object → Prop) (excused : Abort → Prop)
    (x : Action σ α) : Prop :=
  ∀ v w : World σ, v.Paired R w →
    match x w with
    | .ok a w' => ∃ v', x v = .ok a v' ∧ v'.Paired R w'
    | .error e w' => excused e ∨ ∃ v', x v = .error e v' ∧ v'.Paired R w'

namespace Action.Matches

theorem pure (a : α) : Matches R excused (Pure.pure a : Action σ α) := fun v _ hp => ⟨v, rfl, hp⟩

theorem abort (e : Abort) : Matches R excused (Action.abort e : Action σ α) :=
  fun v _ hp => .inr ⟨v, rfl, hp⟩

theorem bind {x : Action σ α} {f : α → Action σ β} (hx : Matches R excused x)
    (hf : ∀ a, Matches R excused (f a)) : Matches R excused (x >>= f) := by
  intro v w hp
  have h := hx v w hp
  cases hw : x w with
  | ok a w' =>
    rw [hw] at h
    obtain ⟨v', hv, hp'⟩ := h
    rw [Action.bind_of_ok hw, Action.bind_of_ok hv]
    exact hf a v' w' hp'
  | error e w' =>
    rw [hw] at h
    rw [Action.bind_of_error hw]
    exact h.imp_right fun ⟨v', hv, hp'⟩ => ⟨v', Action.bind_of_error hv f, hp'⟩

theorem modify {f : World σ → World σ}
    (hf : ∀ v w : World σ, v.Paired R w → (f v).Paired R (f w)) :
    Matches R excused (modify f : Action σ Unit) := fun v w hp => ⟨f v, rfl, hf v w hp⟩

theorem trace (level : Int) (message : Bytes) :
    Matches R excused (trace level message : Action σ Unit) := by
  refine modify fun v w hp => ?_
  by_cases hle : level ≤ w.settings.verbosity
  · rw [World.traced_of_le hle, World.traced_of_le (hp.settings ▸ hle)]
    exact ⟨hp.heap, hp.settings, congrArg (· ++ [_]) hp.trace, hp.host⟩
  · have hw : w.settings.verbosity < level := by omega
    have hv : v.settings.verbosity < level := by rwa [hp.settings]
    rwa [World.traced_of_lt hw, World.traced_of_lt hv]

/-- Both worlds have as many identities. -/
theorem size {f : Nat → Action σ α} (hf : ∀ n, Matches R excused (f n)) :
    Matches R excused (Action.heap >>= fun heap => f heap.size) := by
  intro v w hp
  have h := hf w.heap.size v w hp
  have hrun : ∀ u : World σ, (Action.heap >>= fun heap => f heap.size) u = f u.heap.size u :=
    fun _ => rfl
  rw [hrun, hrun, hp.heap.size]
  exact h

theorem textLimit {f : Nat → Action σ α} (hf : ∀ n, Matches R excused (f n)) :
    Matches R excused (Action.settings >>= fun settings => f settings.textLimit) := by
  intro v w hp
  have h := hf w.settings.textLimit v w hp
  have hrun : ∀ u : World σ, (Action.settings >>= fun settings => f settings.textLimit) u =
      f u.settings.textLimit u := fun _ => rfl
  rw [hrun, hrun, hp.settings]
  exact h

/-- A change after which objects still stand for one another. -/
theorem change {i : ObjId} {f : Object → Object} (hf : ∀ p o, R i p o → R i (f p) (f o)) :
    Matches R excused (Action.updateObject i f : Action σ Unit) :=
  modify fun _ _ hp => ⟨hp.heap.update i hf, hp.settings, hp.trace, hp.host⟩

section Pairing

variable (hR : Pairing R excused)
include hR

theorem allocate (o : Object) : Matches R excused (Action.allocate o : Action σ ObjId) := by
  intro v w hp
  have hp' := hp.heap.allocate (hR.refl _ o)
  have hrun : ∀ w : World σ, Action.allocate o w =
      .ok (w.heap.allocate o).1 { w with heap := (w.heap.allocate o).2 } := fun _ => rfl
  rw [hrun w]
  refine ⟨{ v with heap := (v.heap.allocate o).2 }, ?_, ⟨hp', hp.settings, hp.trace, hp.host⟩⟩
  rw [hrun v, hp.heap.allocate_fst o o]

theorem fresh (payload : Payload) : Matches R excused (fresh payload : Action σ ObjId) := by
  unfold ValueEngine.fresh
  split
  · exact abort _
  · exact allocate hR _

/-! ### Lending -/

/-- What comes of a loan in two worlds: it is given in neither, or in both. -/
theorem takeLoan_cases (access : Access) (r : Ref) {v w : World σ} (hp : v.Paired R w) :
    (∃ e, takeLoan access r w = .error e w ∧
      (excused e ∨ takeLoan access r v = .error e v)) ∨
    ∃ i p o v' w', takeLoan access r w = .ok (i, o) w' ∧ takeLoan access r v = .ok (i, p) v' ∧
      R i p o ∧ v'.Paired R w' := by
  cases r with
  | none => exact .inl ⟨_, rfl, .inr rfl⟩
  | some i =>
    cases ho : w.heap.get? i with
    | none =>
      exact .inl ⟨_, takeLoan_of_dead ho, .inr (takeLoan_of_dead (hp.heap.get?_none ho))⟩
    | some o =>
      obtain ⟨p, ho', hpo⟩ := hp.heap.get? ho
      cases hm : access.acquire o.loan with
      | error e =>
        exact .inl ⟨e, takeLoan_of_refused ho hm,
          (hR.refuse hpo hm).imp_right fun hm' => takeLoan_of_refused ho' hm'⟩
      | ok m =>
        obtain ⟨m', hm', hlent⟩ := hR.grant hpo hm
        refine .inr ⟨i, { p with loan := m' }, { o with loan := m }, _, _,
          takeLoan_of_granted ho hm, takeLoan_of_granted ho' hm', hlent,
          ⟨?_, hp.settings, hp.trace, hp.host⟩⟩
        have hset := hp.heap.update i (f := fun _ => { p with loan := m' })
          (g := fun _ => { o with loan := m }) fun _ _ _ => hlent
        simpa only [Heap.update, ho, ho'] using hset

theorem endLoan {v w : World σ} (hp : v.Paired R w) (access : Access) (i : ObjId) :
    (v.endLoan access i).Paired R (w.endLoan access i) :=
  ⟨hp.heap.update i fun _ _ => hR.release access, hp.settings, hp.trace, hp.host⟩

/-- **Lending does the same in both worlds** if what is done with the object does not
    tell it from one that it stands for. -/
theorem lend {access : Access} {r : Ref} {body : ObjId → Object → Action σ α}
    (hsame : ∀ i p o, R i p o → body i p = body i o)
    (hbody : ∀ i o, Matches R excused (body i o)) : Matches R excused (lend access r body) := by
  intro v w hp
  obtain ⟨e, hw, hv⟩ | ⟨i, p, o, v', w', hw, hv, hpo, hp'⟩ := takeLoan_cases hR access r hp
  · simp only [ValueEngine.lend, hw]
    exact hv.imp_right fun hv => ⟨v, by rw [hv], hp⟩
  · simp only [ValueEngine.lend, hw, hv, hsame i p o hpo]
    have h := hbody i o v' w' hp'
    cases hbw : body i o w' with
    | ok a w'' =>
      rw [hbw] at h
      obtain ⟨v'', hbv, hp''⟩ := h
      rw [hbv]
      exact ⟨_, rfl, endLoan hR hp'' access i⟩
    | error e w'' =>
      rw [hbw] at h
      exact h.imp_right fun ⟨v'', hbv, hp''⟩ => ⟨_, by rw [hbv], endLoan hR hp'' access i⟩

theorem peek {r : Ref} {f : Object → Action σ α} (hsame : ∀ i p o, R i p o → f p = f o)
    (hf : ∀ o, Matches R excused (f o)) : Matches R excused (peek r >>= f) := by
  intro v w hp
  obtain ⟨e, hw, hv⟩ | ⟨i, p, o, v', w', hw, hv, hpo, hp'⟩ := takeLoan_cases hR .read r hp
  · have hpeek : ∀ u : World σ, takeLoan .read r u = .error e u →
        ValueEngine.peek r u = .error e u := fun u hu => by
      simp only [ValueEngine.peek, withRead, ValueEngine.lend, hu]
    rw [Action.bind_of_error (hpeek w hw)]
    exact hv.imp_right fun hv => ⟨v, Action.bind_of_error (hpeek v hv) f, hp⟩
  · have hpeek : ∀ {u u' : World σ} {q : Object}, takeLoan .read r u = .ok (i, q) u' →
        ValueEngine.peek r u = .ok q (u'.endLoan .read i) := fun hu => by
      simp only [ValueEngine.peek, withRead, ValueEngine.lend, hu]
      rfl
    rw [Action.bind_of_ok (hpeek hw), Action.bind_of_ok (hpeek hv), hsame i p o hpo]
    exact hf o _ _ (endLoan hR hp' .read i)

/-- An iterator is made in both worlds or in neither. -/
theorem iterator {r : Ref} {q : Object → Bool} {f : Object → Action σ Outcome}
    (hq : ∀ i p o, R i p o → q p = q o) (hsame : ∀ i p o, R i p o → f p = f o)
    (hf : ∀ o, Matches R excused (f o)) :
    Matches R excused (ValueEngine.peek r >>= fun o =>
      if q o then freshValue (.iterator { target := r }) else f o) := by
  refine peek hR (fun i p o hpo => by rw [hq i p o hpo, hsame i p o hpo]) fun o => ?_
  split
  · exact (fresh hR _).bind fun _ => pure _
  · exact hf o

end Pairing

end Action.Matches

end ValueEngine

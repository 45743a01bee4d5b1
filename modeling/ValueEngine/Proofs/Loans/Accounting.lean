/-
  Value engine — actions that keep loans exact.

  While an action runs, an object is lent to the guards that the host keeps and to the
  operations that are under way. An action that keeps loans exact leaves behind, on
  every way out, a heap whose loans are those of the operations under way around it and
  of the guards that the host keeps by then.

  * `Accounted`: such actions, given where the host keeps its guards.
  * `Accounted.bind`, `Accounted.lend`, …: how they compose.
  * `Procedure.accounted`: every operation is one of them if the host code is.
-/
import ValueEngine.Proofs.Loans.Exact
import ValueEngine.Proofs.Procedure.Operations

namespace ValueEngine

variable {σ α β : Type}

/-- An action that keeps loans exact: if those at its start are the loans of some guards
    `lent` and of those that the host keeps, so they are at its end, for the same `lent`
    and for what the host keeps then. -/
def Accounted (kept : σ → List Guard) (action : Action σ α) : Prop :=
  ∀ (lent : List Guard) (w : World σ), Exact (lent ++ kept w.host) w.heap →
    Exact (lent ++ kept (action.after w).host) (action.after w).heap

namespace Accounted

variable {kept : σ → List Guard}

theorem pure (a : α) : Accounted kept (Pure.pure a : Action σ α) := fun _ _ he => he

theorem abort (e : Abort) : Accounted kept (Action.abort e : Action σ α) := fun _ _ he => he

theorem get : Accounted kept (MonadState.get : Action σ (World σ)) := fun _ _ he => he

theorem bind {x : Action σ α} {f : α → Action σ β} (hx : Accounted kept x)
    (hf : ∀ a, Accounted kept (f a)) : Accounted kept (x >>= f) := by
  intro lent w he
  have h := hx lent w he
  rcases Action.after_bind x f w with hafter | ⟨a, -, hafter⟩
  · rwa [hafter]
  · rw [hafter]
    exact hf a lent _ h

theorem attempt {x : Action σ α} (hx : Accounted kept x) : Accounted kept x.attempt := by
  intro lent w he
  have h := hx lent w he
  rwa [Action.after_attempt]

/-- What touches neither the heap nor the guards that the host keeps. -/
theorem modify {f : World σ → World σ} (hheap : ∀ w, (f w).heap = w.heap)
    (hhost : ∀ w, kept (f w).host = kept w.host) :
    Accounted kept (modify f : Action σ Unit) := by
  intro lent w he
  show Exact (lent ++ kept (f w).host) (f w).heap
  rwa [hheap, hhost]

theorem change {i : ObjId} {f : Object → Object} (hf : ∀ o, (f o).loan = o.loan) :
    Accounted kept (Action.updateObject i f) := fun _ _ he => he.change hf

theorem allocate {o : Object} (ho : o.loan = .free) : Accounted kept (Action.allocate o) :=
  fun _ _ he => he.allocate ho

theorem make (type : Ref) : ∀ payload, Accounted kept (make payload type)
  | some _ => allocate rfl
  | none => abort _

theorem fresh (payload : Payload) : Accounted kept (fresh payload) := by
  unfold ValueEngine.fresh
  split
  · exact abort _
  · exact make _ _

/-! ## Lending -/

/-- What a loan that is given does to the guards there are. -/
theorem exact_of_takeLoan {access : Access} {r : Ref} {w w' : World σ} {i : ObjId} {o : Object}
    {gs : List Guard} (h : takeLoan access r w = .ok (i, o) w') (he : Exact gs w.heap) :
    Exact ({ held := some i, access } :: gs) w'.heap ∧ w'.host = w.host := by
  obtain ⟨p, loan, hp, hl, -, rfl⟩ := takeLoan_ok h
  exact ⟨he.acquire hp hl, rfl⟩

/-- **Lending keeps loans exact**: what is lent is given back on every way out. -/
theorem lend {access : Access} {r : Ref} {body : ObjId → Object → Action σ α}
    (hb : ∀ i o, Accounted kept (body i o)) : Accounted kept (lend access r body) := by
  intro lent w he
  cases ht : takeLoan access r w with
  | error e w' =>
    rw [after_lend_of_refused ht, takeLoan_error ht]
    exact he
  | ok p w' =>
    obtain ⟨i, o⟩ := p
    obtain ⟨he', hhost⟩ := exact_of_takeLoan ht he
    -- while the body runs, the object is lent once more
    have hbody := hb i o ({ held := some i, access } :: lent) w' (by rwa [hhost])
    rw [after_lend ht]
    exact hbody.release

theorem peek (r : Ref) : Accounted kept (peek r : Action σ Object) := lend fun _ _ => pure _

end Accounted

/-- **Procedures keep loans exact** if the host code that they enter does. -/
theorem Procedure.accounted {kept : σ → List Guard} {writes : Prop}
    {foreign : ∀ {α : Type}, Action σ α → Prop}
    (hforeign : ∀ {α : Type} {x : Action σ α}, foreign x → Accounted kept x)
    {x : Action σ α} (h : Procedure foreign writes x) : Accounted kept x := by
  induction h with
  | pure a => exact .pure a
  | abort e _ => exact .abort e
  | bind _ _ ihx ihf => exact ihx.bind ihf
  | lend _ _ _ ih => exact .lend ih
  | peek _ _ ih => exact (Accounted.peek _).bind ih
  | size _ ih => exact Accounted.get.bind (fun _ => .pure _) |>.bind fun heap => ih heap.size
  | textLimit _ ih =>
    exact Accounted.get.bind (fun _ => .pure _) |>.bind fun settings => ih settings.textLimit
  | trace level message => exact .modify (fun w => by simp) fun w => by simp
  | fresh _ => exact .fresh _
  | iterator _ _ _ ih =>
    refine (Accounted.peek _).bind fun o => ?_
    split
    · exact (Accounted.fresh _).bind fun _ => .pure _
    · exact ih o
  | change _ hloan _ =>
    -- a function that commutes with every loan leaves the loan alone
    refine .change fun o => ?_
    have h := congrArg Object.loan (hloan o o.loan)
    exact h
  | foreign hx => exact hforeign hx

end ValueEngine

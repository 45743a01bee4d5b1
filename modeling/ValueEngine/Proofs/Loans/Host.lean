/-
  Value engine — hosts, and every state that a run can come to.

  A host keeps guards for as long as it likes, moves them and releases them in any
  order. Its code, whether it drives the engine or is entered by an operation as a
  hook, a native function or an evaluator, is put together from what the engine offers.

  * `Hands`: a host that keeps guards; `Hands.take`, `Hands.move`, `Hands.release`.
  * `HostCode`: what a host can do, whatever it does with the results, and however
    deeply its code and the operations enter each other.
  * `HostCode.accounted`, `HostCode.leads`: what holds after each piece of host code.
-/
import ValueEngine.Proofs.Loans.Accounting
import ValueEngine.Proofs.Procedure.Frame

namespace ValueEngine

/-! ## Guards in the hands of a host -/

/-- The state of a host that keeps guards. -/
structure Hands (τ : Type) where
  /-- The guards, the newest first. Those that were moved are kept until released. -/
  guards : List Guard := []
  /-- All else that the host remembers. -/
  own : τ

namespace Hands

variable {τ : Type}

/-- Takes a guard for the object behind a reference. -/
def take (access : Access) (r : Ref) : Action (Hands τ) Unit := do
  let g ← Ref.guard access r
  modify fun w => { w with host.guards := g :: w.host.guards }

/-- Moves the guard at a place into a new one, which leaves an empty one behind. -/
def move (place : Nat) : Action (Hands τ) Unit := modify fun w =>
  match w.host.guards[place]? with
  | some g => { w with host.guards := g :: w.host.guards.set place g.moved }
  | none => w

/-- Releases the guard at a place. -/
def release (place : Nat) : Action (Hands τ) Unit := do
  match (← get).host.guards[place]? with
  | some g =>
    g.release
    modify fun w => { w with host.guards := w.host.guards.eraseIdx place }
  | none => return ()

/-- Changes what the host remembers besides its guards. -/
def remember (f : τ → τ) : Action (Hands τ) Unit :=
  modify fun w => { w with host.own := f w.host.own }

/-! ### What they come to -/

theorem take_ok {access : Access} {r : Ref} {w w' : World (Hands τ)}
    (h : take access r w = .ok () w') : ∃ i o v, takeLoan access r w = .ok (i, o) v ∧
      w' = { v with host.guards := { held := some i, access } :: v.host.guards } := by
  cases ht : takeLoan access r w with
  | error e v => simp [take, Ref.guard, bind, EStateM.bind, ht] at h
  | ok p v =>
    obtain ⟨i, o⟩ := p
    refine ⟨i, o, v, rfl, ?_⟩
    simpa [take, Ref.guard, bind, EStateM.bind, ht, eq_comm] using h

/-- A loan that is refused changes nothing. -/
theorem take_error {access : Access} {r : Ref} {w w' : World (Hands τ)} {e : Abort}
    (h : take access r w = .error e w') : w' = w := by
  cases ht : takeLoan access r w with
  | error e v =>
    have hv := takeLoan_error ht
    subst hv
    simp [take, Ref.guard, bind, EStateM.bind, ht] at h
    exact h.2.symm
  | ok p v =>
    obtain ⟨i, o⟩ := p
    simp [take, Ref.guard, bind, EStateM.bind, ht] at h

theorem move_of_some {place : Nat} {g : Guard} {w : World (Hands τ)}
    (hg : w.host.guards[place]? = some g) : (move place).after w =
      { w with host.guards := g :: w.host.guards.set place g.moved } := by
  simp [move, hg]

theorem move_of_none {place : Nat} {w : World (Hands τ)} (hg : w.host.guards[place]? = none) :
    (move place).after w = w := by
  simp [move, hg]

theorem release_of_held {place : Nat} {i : ObjId} {access : Access} {w : World (Hands τ)}
    (hg : w.host.guards[place]? = some { held := some i, access }) : (release place).after w =
      { w.endLoan access i with host.guards := w.host.guards.eraseIdx place } := by
  simp [release, Action.after, bind, EStateM.bind, hg, Guard.release, World.endLoan]

/-- To release a guard that was moved changes nothing but that it is gone. -/
theorem release_of_moved {place : Nat} {g : Guard} {w : World (Hands τ)}
    (hg : w.host.guards[place]? = some g) (hm : g.held = none) : (release place).after w =
      { w with host.guards := w.host.guards.eraseIdx place } := by
  simp [release, Action.after, bind, EStateM.bind, hg, Guard.release, hm]

theorem release_of_none {place : Nat} {w : World (Hands τ)}
    (hg : w.host.guards[place]? = none) : (release place).after w = w := by
  simp [release, Action.after, bind, EStateM.bind, hg]

/-! ### Exact loans -/

theorem take_accounted (access : Access) (r : Ref) :
    Accounted Hands.guards (take access r : Action (Hands τ) Unit) := by
  intro lent w he
  cases ht : take access r w with
  | error e w' =>
    rw [Action.after_of_error ht, take_error ht]
    exact he
  | ok u w' =>
    obtain ⟨i, o, v, hv, rfl⟩ := take_ok ht
    obtain ⟨he', hhost⟩ := Accounted.exact_of_takeLoan hv he
    rw [Action.after_of_ok ht]
    refine Exact.perm ?_ List.perm_middle.symm
    rwa [hhost]

/-- A guard among others can be brought to the front. -/
theorem perm_front {place : Nat} {g : Guard} {gs : List Guard} (hg : gs[place]? = some g)
    (lent : List Guard) : (lent ++ gs).Perm (g :: (lent ++ gs.eraseIdx place)) := by
  obtain ⟨hlt, rfl⟩ := List.getElem?_eq_some_iff.1 hg
  exact ((List.getElem_cons_eraseIdx_perm hlt).symm.append_left lent).trans List.perm_middle

theorem move_accounted (place : Nat) :
    Accounted Hands.guards (move place : Action (Hands τ) Unit) := by
  intro lent w he
  cases hg : w.host.guards[place]? with
  | none => rwa [move_of_none hg]
  | some g =>
    rw [move_of_some hg]
    obtain ⟨hlt, -⟩ := List.getElem?_eq_some_iff.1 hg
    -- the guard comes to the front, and what it leaves behind holds nothing
    have hset : (lent ++ g :: w.host.guards.set place g.moved).Perm
        (g.moved :: g :: (lent ++ w.host.guards.eraseIdx place)) := by
      refine List.perm_middle.trans (.trans (.cons g ?_) (.swap ..))
      exact ((List.set_perm_cons_eraseIdx hlt g.moved).append_left lent).trans List.perm_middle
    exact ((Exact.cons_empty rfl).2 (he.perm (perm_front hg lent))).perm hset.symm

theorem release_accounted (place : Nat) :
    Accounted Hands.guards (release place : Action (Hands τ) Unit) := by
  intro lent w he
  cases hg : w.host.guards[place]? with
  | none => rwa [release_of_none hg]
  | some g =>
    have hfront := he.perm (perm_front hg lent)
    obtain ⟨held, access⟩ := g
    cases held with
    | none =>
      rw [release_of_moved hg rfl]
      exact (Exact.cons_empty rfl).1 hfront
    | some i =>
      rw [release_of_held hg]
      exact hfront.release

end Hands

/-! ## The code of a host -/

/-- Code of a host. It looks at anything, catches aborts, takes, moves and releases
    guards, makes and changes objects, and asks for operations. An operation may enter
    further code of the host, which is host code in turn. -/
inductive HostCode {τ : Type} : ∀ {α : Type}, Action (Hands τ) α → Prop
  | pure {α : Type} (a : α) : HostCode (Pure.pure a)
  | abort {α : Type} (e : Abort) : HostCode (Action.abort e : Action (Hands τ) α)
  | bind {α β : Type} {x : Action (Hands τ) α} {f : α → Action (Hands τ) β} :
      HostCode x → (∀ a, HostCode (f a)) → HostCode (x >>= f)
  | attempt {α : Type} {x : Action (Hands τ) α} : HostCode x → HostCode x.attempt
  | look : HostCode (get : Action (Hands τ) (World (Hands τ)))
  | remember (f : τ → τ) : HostCode (Hands.remember f)
  | configure (f : Settings → Settings) :
      HostCode (modify fun w => { w with settings := f w.settings })
  | trace (level : Int) (message : Bytes) : HostCode (trace level message)
  | take (access : Access) (r : Ref) : HostCode (Hands.take access r)
  | move (place : Nat) : HostCode (Hands.move place)
  | release (place : Nat) : HostCode (Hands.release place)
  /-- A guard for the length of a scope. -/
  | lend {α : Type} {access : Access} {r : Ref} {body : ObjId → Object → Action (Hands τ) α} :
      (∀ i o, HostCode (body i o)) → HostCode (lend access r body)
  | make (payload : Option Payload) (type : Ref) : HostCode (make payload type)
  /-- A change in place, as through a guard. -/
  | change {i : ObjId} {f : Object → Object} :
      (∀ o, (f o).loan = o.loan) → HostCode (Action.updateObject i f)
  | request {env : Environment (Hands τ)} {request : Request} :
      (∀ hook, env.hooks.onFailure = some hook → ∀ cause, HostCode (hook cause)) →
      (∀ hook, env.hooks.onUnsupported = some hook →
        ∀ op a b outcome, HostCode (hook op a b outcome)) →
      (∀ evaluator, env.evaluator = some evaluator →
        ∀ code args, HostCode (env.natives code evaluator args)) →
      (∀ evaluator, env.evaluator = some evaluator →
        ∀ f args, HostCode (evaluator.run f args)) →
      HostCode (request.run env)

namespace HostCode

variable {τ α : Type} {x : Action (Hands τ) α}

/-- **Host code keeps loans exact**, and so does all code that it makes the engine
    enter. -/
theorem accounted (h : HostCode x) : Accounted Hands.guards x := by
  induction h with
  | pure a => exact .pure a
  | abort e => exact .abort e
  | bind _ _ ihx ihf => exact ihx.bind ihf
  | attempt _ ih => exact ih.attempt
  | look => exact .get
  | remember f => exact .modify (fun _ => rfl) fun _ => rfl
  | configure f => exact .modify (fun _ => rfl) fun _ => rfl
  | trace level message => exact .modify (fun w => by simp) fun w => by simp
  | take access r => exact Hands.take_accounted access r
  | move place => exact Hands.move_accounted place
  | release place => exact Hands.release_accounted place
  | lend _ ih => exact .lend ih
  | make payload type => exact .make type payload
  | change hf => exact .change hf
  | request _ _ _ _ ihf ihu ihn ihe =>
    have henv : Environment.Within (Accounted Hands.guards) _ := ⟨⟨ihf, ihu⟩, ihn, ihe⟩
    exact (Request.procedure henv _).accounted fun hx => hx

/-- No host code loses an object. -/
theorem leads (h : HostCode x) : x.Leads Survives := by
  have hR := survives_steps (σ := Hands τ) True
  induction h with
  | pure a => exact .pure hR a
  | abort e => exact hR.refl
  | bind _ _ ihx ihf => exact ihx.bind hR ihf
  | attempt _ ih =>
    intro w
    rw [Action.after_attempt]
    exact ih w
  | look => exact hR.refl
  | remember f => exact fun w i hi => hi
  | configure f => exact fun w i hi => hi
  | trace level message => exact fun w => hR.trace w level message
  | take access r =>
    intro w
    cases ht : Hands.take access r w with
    | error e w' =>
      rw [Action.after_of_error ht, Hands.take_error ht]
      exact hR.refl w
    | ok u w' =>
      obtain ⟨i, o, v, hv, rfl⟩ := Hands.take_ok ht
      rw [Action.after_of_ok ht]
      have hs : Survives w v := Action.Leads.takeLoan hR hv
      exact hs
  | move place =>
    intro w
    cases hg : w.host.guards[place]? with
    | none => rw [Hands.move_of_none hg]; exact hR.refl w
    | some g => rw [Hands.move_of_some hg]; exact hR.refl w
  | release place =>
    intro w
    cases hg : w.host.guards[place]? with
    | none => rw [Hands.release_of_none hg]; exact hR.refl w
    | some g =>
      obtain ⟨held, access⟩ := g
      cases held with
      | none => rw [Hands.release_of_moved hg rfl]; exact hR.refl w
      | some i => rw [Hands.release_of_held hg]; exact hR.loan w i access.release
  | lend _ ih => exact .lend hR ih
  | make payload type =>
    cases payload with
    | none => exact hR.refl
    | some payload => exact fun w => .allocate w _
  | change _ => exact fun w => .update w _ _
  | request _ _ _ _ ihf ihu ihn ihe =>
    have henv : Environment.Within (Action.Leads Survives) _ := ⟨⟨ihf, ihu⟩, ihn, ihe⟩
    exact (Request.procedure henv _).leads hR fun hx => hx

end HostCode

end ValueEngine

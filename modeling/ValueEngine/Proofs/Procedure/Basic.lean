/-
  Value engine — procedures: what the operations of an engine are built from.

  An operation lends objects, looks at the ones it was lent, makes new ones, changes
  those it was lent for writing, fails, aborts, and enters the code of the host. What
  holds of these steps and is kept by composition holds of every operation, by one
  induction for all of them.

  * `KeepsTarget`: changes of objects that give no iterator another target.
  * `Procedure`: actions built from these steps.
  * `Hooks.Within`, `Environment.Within`: host code that belongs to a class of actions.
  * `Procedure.mono`: what only reads is a procedure that may also write.
-/
import ValueEngine.Request

namespace ValueEngine

variable {σ α β : Type}

/-- A change of an object that makes no iterator of it, nor gives one another target. -/
def KeepsTarget (f : Object → Object) : Prop :=
  ∀ o cursor, (f o).payload = .iterator cursor →
    ∃ c, o.payload = .iterator c ∧ c.target = cursor.target

theorem KeepsTarget.of_payload {f : Object → Object} (hf : ∀ o, (f o).payload = o.payload) :
    KeepsTarget f := fun o cursor h => ⟨cursor, by rw [← hf, h], rfl⟩

theorem KeepsTarget.setPayload {payload : Payload} (hp : ∀ cursor, payload ≠ .iterator cursor) :
    KeepsTarget fun o => { o with payload := payload } := fun _ cursor h => absurd h (hp cursor)

theorem KeepsTarget.movedTo (moved : Cursor) :
    KeepsTarget fun o => { o with payload := o.payload.movedTo moved } := by
  intro o cursor h
  dsimp only at h
  cases hp : o.payload with
  | iterator c =>
    rw [hp] at h
    cases h
    exact ⟨c, rfl, rfl⟩
  | _ =>
    rw [hp] at h
    cases h

/-- Actions built from the steps of an engine. Objects are lent for writing and changed
    only if `writes`; `foreign` is the host code that may be entered. What is done with
    an object that is lent does not depend on who else has it. -/
inductive Procedure (foreign : ∀ {α : Type}, Action σ α → Prop) (writes : Prop) :
    ∀ {α : Type}, Action σ α → Prop
  | pure {α : Type} (a : α) : Procedure foreign writes (Pure.pure a : Action σ α)
  /-- Only lending comes to a conflict between loans. -/
  | abort {α : Type} (e : Abort) :
      e.isLoanConflict = false → Procedure foreign writes (Action.abort e : Action σ α)
  | bind {α β : Type} {x : Action σ α} {f : α → Action σ β} :
      Procedure foreign writes x → (∀ a, Procedure foreign writes (f a)) →
      Procedure foreign writes (x >>= f)
  | lend {α : Type} {access : Access} {r : Ref} {body : ObjId → Object → Action σ α} :
      (access = .write → writes) →
      (∀ i o loan, body i { o with loan := loan } = body i o) →
      (∀ i o, Procedure foreign writes (body i o)) →
      Procedure foreign writes (lend access r body)
  | peek {α : Type} {r : Ref} {f : Object → Action σ α} :
      (∀ o loan, f { o with loan := loan } = f o) →
      (∀ o, Procedure foreign writes (f o)) →
      Procedure foreign writes (peek r >>= f)
  /-- The number of identities is all that is read of the heap as a whole. -/
  | size {α : Type} {f : Nat → Action σ α} :
      (∀ n, Procedure foreign writes (f n)) →
      Procedure foreign writes (Action.heap >>= fun heap => f heap.size)
  | textLimit {α : Type} {f : Nat → Action σ α} :
      (∀ n, Procedure foreign writes (f n)) →
      Procedure foreign writes (Action.settings >>= fun settings => f settings.textLimit)
  | trace (level : Int) (message : Bytes) : Procedure foreign writes (trace level message)
  | fresh {payload : Payload} :
      (∀ cursor, payload ≠ .iterator cursor) → Procedure foreign writes (fresh payload)
  /-- An iterator is made over an object that was looked at. -/
  | iterator {r : Ref} {p : Object → Bool} {f : Object → Action σ Outcome} :
      (∀ o loan, p { o with loan := loan } = p o) →
      (∀ o loan, f { o with loan := loan } = f o) →
      (∀ o, Procedure foreign writes (f o)) →
      Procedure foreign writes (peek r >>= fun o =>
        if p o then freshValue (.iterator { target := r }) else f o)
  /-- A change of an object that leaves alone who has it. -/
  | change {i : ObjId} {f : Object → Object} :
      writes → (∀ o loan, f { o with loan := loan } = { f o with loan := loan }) →
      KeepsTarget f → Procedure foreign writes (Action.updateObject i f)
  | foreign {α : Type} {x : Action σ α} : foreign x → Procedure foreign writes x

/-- Hooks whose code is in a class. -/
structure Hooks.Within (foreign : ∀ {α : Type}, Action σ α → Prop) (hooks : Hooks σ) : Prop where
  onFailure : ∀ hook, hooks.onFailure = some hook → ∀ cause, foreign (hook cause)
  onUnsupported : ∀ hook, hooks.onUnsupported = some hook →
    ∀ op a b outcome, foreign (hook op a b outcome)

/-- Host code that is in a class as far as an operation can enter it. -/
structure Environment.Within (foreign : ∀ {α : Type}, Action σ α → Prop) (env : Environment σ) :
    Prop where
  hooks : env.hooks.Within foreign
  natives : ∀ evaluator, env.evaluator = some evaluator →
    ∀ code args, foreign (env.natives code evaluator args)
  evaluator : ∀ evaluator, env.evaluator = some evaluator →
    ∀ f args, foreign (evaluator.run f args)

/-- No hooks are in every class. -/
theorem Hooks.within_none (foreign : ∀ {α : Type}, Action σ α → Prop) :
    Hooks.Within foreign ({} : Hooks σ) where
  onFailure := nofun
  onUnsupported := nofun

namespace Procedure

variable {foreign : ∀ {α : Type}, Action σ α → Prop} {writes : Prop}

/-- What only reads is a procedure that may also write. -/
theorem mono {writes' : Prop} (hw : writes → writes') {x : Action σ α}
    (h : Procedure foreign writes x) : Procedure foreign writes' x := by
  induction h with
  | pure a => exact .pure a
  | abort e he => exact .abort e he
  | bind _ _ ihx ihf => exact .bind ihx ihf
  | lend haccess hloan _ ih => exact .lend (fun ha => hw (haccess ha)) hloan ih
  | peek hloan _ ih => exact .peek hloan ih
  | size _ ih => exact .size ih
  | textLimit _ ih => exact .textLimit ih
  | trace level message => exact .trace level message
  | fresh hp => exact .fresh hp
  | iterator hp hf _ ih => exact .iterator hp hf ih
  | change hc hloan hf => exact .change (hw hc) hloan hf
  | foreign hx => exact .foreign hx

theorem map {x : Action σ α} (hx : Procedure foreign writes x) (f : α → β) :
    Procedure foreign writes (f <$> x) :=
  .bind hx fun a => .pure (f a)

theorem succeedNone : Procedure foreign writes (succeedNone : Action σ Outcome) := .pure _

end Procedure

end ValueEngine

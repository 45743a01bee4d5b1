/-
  Value engine — procedures that look at values alone.

  An object holds something, and besides that it has attributes and a type link. Most
  operations ask only for the first. Such an operation is built from the steps of a
  procedure, with one thing more said of each: what is done with an object that is
  lent, or looked at, depends on nothing but what it holds, and a change of it is a
  change of what it holds.

  * `SeesPayload`: functions of objects that look at nothing but what they hold.
  * `ValueProcedure`: actions built from steps of this sort.
  * `ValueProcedure.procedure`: each of them is a procedure.
  * `ValueProcedure.stateful_bind`, `ValueProcedure.mapM`: composition under a state of
    its own.
-/
import ValueEngine.Proofs.Procedure.Basic

namespace ValueEngine

variable {σ α β : Type}

/-- A function of objects that looks at nothing but what they hold. -/
def SeesPayload (f : Object → α) : Prop :=
  ∀ o type attributes loan, f { o with type := type, attributes := attributes, loan := loan } = f o

theorem SeesPayload.loan {f : Object → α} (hf : SeesPayload f) (o : Object) (loan : Loan) :
    f { o with loan := loan } = f o := hf o o.type o.attributes loan

theorem SeesPayload.congr {f : Object → α} (hf : SeesPayload f) {p o : Object}
    (h : p.payload = o.payload) : f p = f o := by
  cases o
  cases h
  exact (hf p _ _ _).symm

theorem SeesPayload.of_congr {f : Object → α} (hf : ∀ p o, p.payload = o.payload → f p = f o) :
    SeesPayload f := fun _ _ _ _ => hf _ _ rfl

/-- Actions built from the steps of a procedure that look at what objects hold and at
    nothing else of them, and change nothing else of them. -/
inductive ValueProcedure (foreign : ∀ {α : Type}, Action σ α → Prop) (writes : Prop) :
    ∀ {α : Type}, Action σ α → Prop
  | pure {α : Type} (a : α) : ValueProcedure foreign writes (Pure.pure a : Action σ α)
  | abort {α : Type} (e : Abort) :
      e.isLoanConflict = false → ValueProcedure foreign writes (Action.abort e : Action σ α)
  | bind {α β : Type} {x : Action σ α} {f : α → Action σ β} :
      ValueProcedure foreign writes x → (∀ a, ValueProcedure foreign writes (f a)) →
      ValueProcedure foreign writes (x >>= f)
  | lend {α : Type} {access : Access} {r : Ref} {body : ObjId → Object → Action σ α} :
      (access = .write → writes) → (∀ i, SeesPayload (body i)) →
      (∀ i o, ValueProcedure foreign writes (body i o)) →
      ValueProcedure foreign writes (lend access r body)
  | peek {α : Type} {r : Ref} {f : Object → Action σ α} :
      SeesPayload f → (∀ o, ValueProcedure foreign writes (f o)) →
      ValueProcedure foreign writes (peek r >>= f)
  | size {α : Type} {f : Nat → Action σ α} :
      (∀ n, ValueProcedure foreign writes (f n)) →
      ValueProcedure foreign writes (Action.heap >>= fun heap => f heap.size)
  | textLimit {α : Type} {f : Nat → Action σ α} :
      (∀ n, ValueProcedure foreign writes (f n)) →
      ValueProcedure foreign writes (Action.settings >>= fun settings => f settings.textLimit)
  | trace (level : Int) (message : Bytes) : ValueProcedure foreign writes (trace level message)
  | fresh {payload : Payload} :
      (∀ cursor, payload ≠ .iterator cursor) → ValueProcedure foreign writes (fresh payload)
  | iterator {r : Ref} {p : Object → Bool} {f : Object → Action σ Outcome} :
      SeesPayload p → SeesPayload f → (∀ o, ValueProcedure foreign writes (f o)) →
      ValueProcedure foreign writes (peek r >>= fun o =>
        if p o then freshValue (.iterator { target := r }) else f o)
  /-- A change of what an object holds, and of nothing else. -/
  | change {i : ObjId} {f : Payload → Payload} :
      writes → KeepsTarget (fun o => { o with payload := f o.payload }) →
      ValueProcedure foreign writes
        (Action.updateObject i fun o => { o with payload := f o.payload })
  | foreign {α : Type} {x : Action σ α} : foreign x → ValueProcedure foreign writes x

namespace ValueProcedure

variable {foreign : ∀ {α : Type}, Action σ α → Prop} {writes : Prop}

/-- **What looks at values alone is a procedure.** Who has an object is not part of its
    value. -/
theorem procedure {x : Action σ α} (h : ValueProcedure foreign writes x) :
    Procedure foreign writes x := by
  induction h with
  | pure a => exact .pure a
  | abort e he => exact .abort e he
  | bind _ _ ihx ihf => exact .bind ihx ihf
  | lend haccess hbody _ ih => exact .lend haccess (fun i => (hbody i).loan) ih
  | peek hf _ ih => exact .peek hf.loan ih
  | size _ ih => exact .size ih
  | textLimit _ ih => exact .textLimit ih
  | trace level message => exact .trace level message
  | fresh hp => exact .fresh hp
  | iterator hp hf _ ih => exact .iterator hp.loan hf.loan ih
  | change hw hf => exact .change hw (fun _ _ => rfl) hf
  | foreign hx => exact .foreign hx

theorem map {x : Action σ α} (hx : ValueProcedure foreign writes x) (f : α → β) :
    ValueProcedure foreign writes (f <$> x) :=
  .bind hx fun a => .pure (f a)

theorem ofExcept : ∀ value : Except Abort α,
    (∀ e, value = .error e → e.isLoanConflict = false) →
      ValueProcedure foreign writes (Action.ofExcept value : Action σ α)
  | .ok a, _ => .pure a
  | .error e, he => .abort e (he e rfl)

theorem succeed (r : Ref) :
    ValueProcedure foreign writes (Action.succeed r : Action σ Outcome) := by
  refine ofExcept _ fun e he => ?_
  cases r <;> cases he
  rfl

theorem freshValue {payload : Payload} (hp : ∀ cursor, payload ≠ .iterator cursor) :
    ValueProcedure foreign writes (freshValue payload : Action σ Outcome) :=
  .bind (.fresh hp) fun _ => .pure _

theorem succeedNone : ValueProcedure foreign writes (succeedNone : Action σ Outcome) := .pure _

/-- Lending for reading is open to every procedure. -/
theorem withRead {r : Ref} {body : ObjId → Object → Action σ α} (hsees : ∀ i, SeesPayload (body i))
    (hbody : ∀ i o, ValueProcedure foreign writes (body i o)) :
    ValueProcedure foreign writes (withRead r body) :=
  .lend nofun hsees hbody

/-! ## Procedures with a state of their own -/

section Stateful

variable {S : Type}

theorem stateful_bind {x : StateT S (Action σ) α} {f : α → StateT S (Action σ) β}
    (hx : ∀ s, ValueProcedure foreign writes (x s))
    (hf : ∀ a s, ValueProcedure foreign writes (f a s)) (s : S) :
    ValueProcedure foreign writes ((x >>= f) s) :=
  .bind (hx s) fun p => hf p.1 p.2

theorem stateful_pure (a : α) (s : S) :
    ValueProcedure foreign writes ((Pure.pure a : StateT S (Action σ) α) s) := .pure (a, s)

theorem mapM {f : α → StateT S (Action σ) β}
    (hf : ∀ a s, ValueProcedure foreign writes (f a s)) (xs : List α) (s : S) :
    ValueProcedure foreign writes (xs.mapM f s) := by
  induction xs generalizing s with
  | nil =>
    rw [List.mapM_nil]
    exact stateful_pure _ s
  | cons x xs ih =>
    rw [List.mapM_cons]
    exact stateful_bind (hf x) (fun b => stateful_bind ih fun bs => stateful_pure (b :: bs)) s

end Stateful

end ValueProcedure

end ValueEngine

/-
  Value engine — actions.

  An action is a computation on the state of an engine that may abort. What it did
  before an abort stays done.

  * `World`: the heap, the settings, the trace and the state of the host.
  * `Action`: computations on a world.
  * `Action.attempt`: runs an action and turns an abort into a result.
  * `Action.after`: the world that an action leaves behind, however it ends.
  * `Action.allocate`, `Action.updateObject`, …: the changes of the heap.
-/
import ValueEngine.Heap.Canonical
import ValueEngine.Outcome.Basic

namespace ValueEngine

/-- The limits and the verbosity of an engine. -/
structure Settings where
  /-- The greatest length of a string that an operator makes. -/
  textLimit : Nat := 67108864
  /-- Messages above this level are not traced. -/
  verbosity : Int := 0
  deriving DecidableEq, Repr

/-- A message of the trace with the level it was written at. -/
structure TraceLine where
  level : Int
  message : Bytes
  deriving DecidableEq, Repr

/-- The state of an engine. `host` belongs to the host; the engine never looks at it. -/
structure World (σ : Type) where
  heap : Heap
  settings : Settings := {}
  trace : List TraceLine := []
  host : σ

/-- Computations on a world that may abort and keep what they did until then. -/
abbrev Action (σ : Type) := EStateM Abort (World σ)

variable {σ α : Type}

/-- The state of an engine that just started. -/
def World.initial (host : σ) : World σ where
  heap := .initial
  host := host

namespace Action

/-- Leaves the action. -/
def abort (e : Abort) : Action σ α := throw e

/-- A value, or the abort that stands in its place. -/
def ofExcept : Except Abort α → Action σ α
  | .ok a => pure a
  | .error e => abort e

/-- Runs an action and turns an abort into a result. What was done stays done. -/
def attempt (action : Action σ α) : Action σ (Except Abort α) := fun w =>
  match action w with
  | .ok a w => .ok (.ok a) w
  | .error e w => .ok (.error e) w

/-- The world that an action leaves behind, however it ends. -/
def after (action : Action σ α) (w : World σ) : World σ :=
  match action w with
  | .ok _ w => w
  | .error _ w => w

/-- The heap as it is now. -/
def heap : Action σ Heap := return (← get).heap

/-- The settings as they are now. -/
def settings : Action σ Settings := return (← get).settings

/-- Changes a live object. -/
def updateObject (i : ObjId) (f : Object → Object) : Action σ Unit :=
  modify fun w => { w with heap := w.heap.update i f }

/-- Replaces the payload of a live object. -/
def setPayload (i : ObjId) (payload : Payload) : Action σ Unit :=
  updateObject i fun o => { o with payload := payload }

/-- Adds an object under a new identity. -/
def allocate (o : Object) : Action σ ObjId :=
  modifyGet fun w =>
    let (i, heap) := w.heap.allocate o
    (i, { w with heap := heap })

/-- The success that holds a value; aborts on the null reference. -/
def succeed (r : Ref) : Action σ Outcome := ofExcept (Outcome.ofValue r)

/-! ## What an action comes to -/

section After

variable {β : Type} {x : Action σ α} {w w' : World σ}

@[simp] theorem pure_apply (a : α) (w : World σ) : (pure a : Action σ α) w = .ok a w := rfl

@[simp] theorem abort_apply (e : Abort) (w : World σ) :
    (abort e : Action σ α) w = .error e w := rfl

@[simp] theorem get_apply (w : World σ) : (get : Action σ (World σ)) w = .ok w w := rfl

@[simp] theorem modify_apply (f : World σ → World σ) (w : World σ) :
    (modify f : Action σ Unit) w = .ok () (f w) := rfl

@[simp] theorem after_modify (f : World σ → World σ) (w : World σ) :
    (modify f : Action σ Unit).after w = f w := rfl

@[simp] theorem after_attempt (x : Action σ α) (w : World σ) : x.attempt.after w = x.after w := by
  simp only [after, attempt]
  cases x w <;> rfl

theorem after_of_ok {a : α} (h : x w = .ok a w') : x.after w = w' := by simp [after, h]

theorem after_of_error {e : Abort} (h : x w = .error e w') : x.after w = w' := by
  simp [after, h]

theorem run'_of_ok {a : α} (h : x w = .ok a w') : x.run' w = some a :=
  congrArg (fun result => EStateM.run' (fun _ => result) w) h

theorem bind_of_ok {a : α} (h : x w = .ok a w') (f : α → Action σ β) : (x >>= f) w = f a w' := by
  simp [bind, EStateM.bind, h]

theorem bind_of_error {e : Abort} (h : x w = .error e w') (f : α → Action σ β) :
    (x >>= f) w = .error e w' := by
  simp [bind, EStateM.bind, h]

/-- An action in two parts leaves behind what the second part does, unless the first is
    left. -/
theorem after_bind (x : Action σ α) (f : α → Action σ β) (w : World σ) :
    (x >>= f).after w = x.after w ∨
      ∃ a, x w = .ok a (x.after w) ∧ (x >>= f).after w = (f a).after (x.after w) := by
  cases hx : x w with
  | ok a w' =>
    rw [after_of_ok hx]
    exact .inr ⟨a, rfl, by simp only [after, bind_of_ok hx]⟩
  | error e w' =>
    rw [after_of_error hx]
    exact .inl (after_of_error (bind_of_error hx f))

/-- To put a value another way changes nothing. -/
theorem after_map (x : Action σ α) (g : α → β) (w : World σ) :
    (do return g (← x) : Action σ β).after w = x.after w := by
  rcases after_bind x (fun a => pure (g a)) w with h | ⟨a, -, h⟩ <;> exact h

end After

end Action

end ValueEngine

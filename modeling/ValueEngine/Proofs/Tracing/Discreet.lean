/-
  Value engine — code that takes no notice of the verbosity.

  The verbosity decides which messages of the trace are kept. Code that neither reads nor
  sets it, and that never looks at the trace, is put together from steps that see all
  the rest of a world, and from messages. Every operation is such code, as far as the
  code of the host is that it enters.

  * `Scene`: all of a world but the verbosity and the trace.
  * `Action.act`: a step that sees and changes a scene, and may abort.
  * `Discreet`: code put together from such steps and from messages.
  * `Environment.Discreet`: hooks, native functions and an evaluator of such code.
  * `Procedure.discreet`, `Request.discreet`: operations are discreet where the code of
    the host is.
-/
import ValueEngine.Proofs.Procedure.Operations

namespace ValueEngine

variable {σ α β : Type}

/-- All of a world but the verbosity and the trace. -/
structure Scene (σ : Type) where
  heap : Heap
  textLimit : Nat
  host : σ

namespace World

/-- What is to be seen of a world. -/
def scene (w : World σ) : Scene σ := ⟨w.heap, w.settings.textLimit, w.host⟩

/-- The world with another scene; the verbosity and the trace stay. -/
def withScene (w : World σ) (s : Scene σ) : World σ :=
  { w with heap := s.heap, settings.textLimit := s.textLimit, host := s.host }

end World

theorem Action.attempt_of_ok {x : Action σ α} {w w' : World σ} {a : α} (h : x w = .ok a w') :
    x.attempt w = .ok (.ok a) w' := by simp only [attempt, h]

theorem Action.attempt_of_error {x : Action σ α} {w w' : World σ} {e : Abort}
    (h : x w = .error e w') : x.attempt w = .ok (.error e) w' := by simp only [attempt, h]

/-- A step that sees and changes a scene. What it changed stays when it aborts. -/
def Action.act (f : Scene σ → Except Abort α × Scene σ) : Action σ α := fun w =>
  match (f w.scene).1 with
  | .ok a => .ok a (w.withScene (f w.scene).2)
  | .error e => .error e (w.withScene (f w.scene).2)

/-- Code that neither reads nor sets the verbosity and never looks at the trace. It writes
    messages of any level, and catches aborts. -/
inductive Discreet : ∀ {α : Type}, Action σ α → Prop
  | act {α : Type} (f : Scene σ → Except Abort α × Scene σ) : Discreet (Action.act f)
  | trace (level : Int) (message : Bytes) : Discreet (trace level message)
  | bind {α β : Type} {x : Action σ α} {f : α → Action σ β} :
      Discreet x → (∀ a, Discreet (f a)) → Discreet (x >>= f)
  | attempt {α : Type} {x : Action σ α} : Discreet x → Discreet x.attempt

namespace Discreet

/-! ## Steps -/

theorem pure (a : α) : Discreet (Pure.pure a : Action σ α) := .act fun s => (.ok a, s)

theorem abort (e : Abort) : Discreet (Action.abort e : Action σ α) := .act fun s => (.error e, s)

theorem ofExcept : ∀ value : Except Abort α, Discreet (Action.ofExcept value : Action σ α)
  | .ok a => .pure a
  | .error e => .abort e

/-- A change of the heap. -/
theorem edit (f : Heap → Heap) :
    Discreet (modify fun w => { w with heap := f w.heap } : Action σ Unit) :=
  .act fun s => (.ok (), { s with heap := f s.heap })

theorem allocate (o : Object) : Discreet (Action.allocate o : Action σ ObjId) :=
  .act fun s => (.ok (s.heap.allocate o).1, { s with heap := (s.heap.allocate o).2 })

theorem make (payload : Option Payload) (type : Ref) :
    Discreet (make payload type : Action σ ObjId) := by
  cases payload with
  | none => exact .abort .objectWithoutPayload
  | some payload => exact .allocate _

theorem fresh (payload : Payload) : Discreet (fresh payload : Action σ ObjId) := by
  unfold ValueEngine.fresh
  cases payload.missingPart? with
  | some e => exact .abort e
  | none => exact .make _ _

/-! ## Lending -/

/-- A loan is given or refused by what is on the heap. -/
theorem takeLoan (access : Access) (r : Ref) :
    Discreet (takeLoan access r : Action σ (ObjId × Object)) := by
  have hact : (ValueEngine.takeLoan access r : Action σ (ObjId × Object)) =
      Action.act fun s =>
        r.elim (.error .nullReference, s) fun i =>
          (s.heap.get? i).elim (.error .nullReference, s) fun o =>
            ((access.acquire o.loan).map fun loan => (i, { o with loan := loan }),
              (access.acquire o.loan).toOption.elim s fun loan =>
                { s with heap := s.heap.set i { o with loan := loan } }) := by
    funext w
    cases r with
    | none => rfl
    | some i =>
      simp only [ValueEngine.takeLoan, Action.act, World.scene, Option.elim_some]
      cases w.heap.get? i with
      | none => rfl
      | some o => dsimp only [Option.elim_some]; cases access.acquire o.loan <;> rfl
  rw [hact]
  exact .act _

/-- To lend is to take a loan, to run what it is for, and to end the loan whatever came of
    that. -/
theorem lend_eq (access : Access) (r : Ref) (body : ObjId → Object → Action σ α) :
    lend access r body = (do
      let p ← ValueEngine.takeLoan access r
      let result ← (body p.1 p.2).attempt
      modify (World.endLoan access p.1)
      Action.ofExcept result) := by
  funext w
  cases ht : ValueEngine.takeLoan access r w with
  | error e w' => rw [Action.bind_of_error ht, ValueEngine.lend, ht]
  | ok p w' =>
    rw [Action.bind_of_ok ht, ValueEngine.lend, ht]
    cases hb : body p.1 p.2 w' with
    | ok a v => simp only [Action.bind_of_ok (Action.attempt_of_ok hb), hb]; rfl
    | error e v => simp only [Action.bind_of_ok (Action.attempt_of_error hb), hb]; rfl

theorem lend {access : Access} {r : Ref} {body : ObjId → Object → Action σ α}
    (h : ∀ i o, Discreet (body i o)) : Discreet (lend access r body) := by
  rw [lend_eq]
  exact .bind (.takeLoan access r) fun p => .bind (.attempt (h p.1 p.2)) fun result =>
    .bind (.edit fun heap => heap.update p.1 _) fun _ => .ofExcept result

theorem peek (r : Ref) : Discreet (peek r : Action σ Object) := .lend fun _ o => .pure o

end Discreet

/-! ## Operations -/

/-- **Procedures are discreet** where the host code that they enter is. -/
theorem Procedure.discreet {foreign : ∀ {α : Type}, Action σ α → Prop} {writes : Prop}
    (hforeign : ∀ {α : Type} {x : Action σ α}, foreign x → Discreet x) {x : Action σ α}
    (h : Procedure foreign writes x) : Discreet x := by
  induction h with
  | pure a => exact .pure a
  | abort e _ => exact .abort e
  | bind _ _ ihx ihf => exact .bind ihx ihf
  | lend _ _ _ ih => exact .lend ih
  | peek _ _ ih => exact .bind (.peek _) ih
  | size _ ih =>
    exact .bind (x := Action.heap) (.act fun s => (.ok s.heap, s)) fun heap => ih heap.size
  | textLimit _ ih =>
    rename_i f _
    -- of the settings only the limit is read
    have hread : (Action.settings >>= fun settings => f settings.textLimit) =
        Action.act (fun s => (.ok s.textLimit, s)) >>= f := rfl
    rw [hread]
    exact .bind (.act _) ih
  | trace level message => exact .trace level message
  | fresh _ => exact .fresh _
  | iterator _ _ _ ih =>
    refine .bind (.peek _) fun o => ?_
    split
    · exact .bind (.fresh _) fun _ => .pure _
    · exact ih o
  | change _ _ _ => exact .edit fun heap => heap.update _ _
  | foreign hx => exact hforeign hx

/-- Code of a host that takes no notice of the verbosity. A native function does not
    either, whatever such evaluator it is handed. -/
structure Environment.Discreet (env : Environment σ) : Prop where
  hooks : env.hooks.Within ValueEngine.Discreet
  natives : ∀ evaluator : Evaluator σ, (∀ f args, ValueEngine.Discreet (evaluator.run f args)) →
    ∀ code args, ValueEngine.Discreet (env.natives code evaluator args)
  evaluator : ∀ evaluator, env.evaluator = some evaluator →
    ∀ f args, ValueEngine.Discreet (evaluator.run f args)

/-- **Operations are discreet** in a discreet environment. -/
theorem Request.discreet {env : Environment σ} (h : env.Discreet) (request : Request) :
    Discreet (request.run env) := by
  have henv : env.Within Discreet :=
    ⟨h.hooks, fun evaluator he => h.natives evaluator (h.evaluator evaluator he), h.evaluator⟩
  exact (Request.procedure henv request).discreet fun hx => hx

end ValueEngine

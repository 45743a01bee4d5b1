/-
  Value engine — hosts that keep a ledger of their iterators.

  A host notes for every iterator how many elements it has given, and how often it came to
  a null slot. Objects it changes only through the guards that it has and by asking for
  operations.

  * `Ledger`, `Ledger.next`: what is noted of a step.
  * `FairCode`, `Recorded`: what such a host can do, and the states that a run comes to.
  * `World.Counted`: a ledger that says of every iterator where it is.
-/
import ValueEngine.Proofs.Iteration.Advance
import ValueEngine.Proofs.Life.Collection
import ValueEngine.Proofs.Loans.Run

namespace ValueEngine

variable {τ α β : Type}

/-! ## Ledgers -/

/-- What a host notes of the steps that it lets iterators take. -/
structure Ledger (τ : Type) where
  /-- How many elements each has given. -/
  given : Ref → Nat := fun _ => 0
  /-- How often each has come to a null slot. -/
  lost : Ref → Nat := fun _ => 0
  /-- All else that the host remembers. -/
  own : τ

namespace Ledger

/-- Notes an element that was given. -/
def give (a : Ref) (l : Ledger τ) : Ledger τ :=
  { l with given := Function.update l.given a (l.given a + 1) }

/-- Notes a null slot. -/
def lose (a : Ref) (l : Ledger τ) : Ledger τ :=
  { l with lost := Function.update l.lost a (l.lost a + 1) }

section Notes

variable (l : Ledger τ) (a : Ref) {b : Ref}

@[simp] theorem given_give_self : (l.give a).given a = l.given a + 1 := Function.update_self ..

theorem given_give_of_ne (hne : b ≠ a) : (l.give a).given b = l.given b :=
  Function.update_of_ne hne ..

@[simp] theorem lost_give : (l.give a).lost = l.lost := rfl

@[simp] theorem lost_lose_self : (l.lose a).lost a = l.lost a + 1 := Function.update_self ..

theorem lost_lose_of_ne (hne : b ≠ a) : (l.lose a).lost b = l.lost b :=
  Function.update_of_ne hne ..

@[simp] theorem given_lose : (l.lose a).given = l.given := rfl

end Notes

/-- The next element of an iterator, with a note of it: of the element, or else of the null
    slot that the iterator was about to come to. -/
def next (hooks : Hooks (Hands (Ledger τ))) (a : Ref) : Action (Hands (Ledger τ)) Outcome := do
  let ahead := a.bind (← Action.heap).ahead?
  match ← (Ref.next hooks a).attempt with
  | .ok (.success v) =>
    Hands.remember (give a)
    return .success v
  | .ok outcome => return outcome
  | .error e =>
    if ahead = some none then Hands.remember (lose a)
    Action.abort e

end Ledger

/-- Changes an object in place through the guard at a place, if that is one for writing. -/
def Hands.edit (place : Nat) (f : Object → Object) : Action (Hands τ) Unit := do
  match (← get).host.guards[place]? with
  | some { held := some i, access := .write } => Action.updateObject i f
  | _ => return ()

theorem Hands.edit_cases (place : Nat) (f : Object → Object) (w : World (Hands τ)) :
    (edit place f).after w = w ∨ ∃ i, { held := some i, access := .write } ∈ w.host.guards ∧
      (edit place f).after w = { w with heap := w.heap.update i f } := by
  cases hg : w.host.guards[place]? with
  | none => simp [edit, Action.after, bind, EStateM.bind, hg]
  | some g =>
    obtain ⟨held, access⟩ := g
    cases held with
    | none => simp [edit, Action.after, bind, EStateM.bind, hg]
    | some i =>
      cases access with
      | read => simp [edit, Action.after, bind, EStateM.bind, hg]
      | write =>
        refine .inr ⟨i, List.mem_of_getElem? hg, ?_⟩
        simp [edit, Action.after, bind, EStateM.bind, hg, Action.updateObject]

/-- Code of a host that changes objects only through its guards and by asking for
    operations, and notes each step of an iterator. What an operation enters is such code
    in turn. -/
inductive FairCode {τ : Type} : ∀ {α : Type}, Action (Hands (Ledger τ)) α → Prop
  | pure {α : Type} (a : α) : FairCode (Pure.pure a)
  | abort {α : Type} (e : Abort) : FairCode (Action.abort e : Action (Hands (Ledger τ)) α)
  | bind {α β : Type} {x : Action (Hands (Ledger τ)) α} {f : α → Action (Hands (Ledger τ)) β} :
      FairCode x → (∀ a, FairCode (f a)) → FairCode (x >>= f)
  | attempt {α : Type} {x : Action (Hands (Ledger τ)) α} : FairCode x → FairCode x.attempt
  | look : FairCode (get : Action (Hands (Ledger τ)) (World (Hands (Ledger τ))))
  | remember (f : τ → τ) : FairCode (Hands.remember fun l => { l with own := f l.own })
  | configure (f : Settings → Settings) :
      FairCode (modify fun w => { w with settings := f w.settings })
  | trace (level : Int) (message : Bytes) : FairCode (trace level message)
  | take (access : Access) (r : Ref) : FairCode (Hands.take access r)
  | move (place : Nat) : FairCode (Hands.move place)
  | release (place : Nat) : FairCode (Hands.release place)
  | lend {α : Type} {access : Access} {r : Ref}
      {body : ObjId → Object → Action (Hands (Ledger τ)) α} :
      (∀ i o, FairCode (body i o)) → FairCode (lend access r body)
  /-- A new object. Iterators are made at the beginning. -/
  | make {payload : Option Payload} {type : Ref} :
      (∀ cursor, payload = some (.iterator cursor) → cursor.position = 0) →
      FairCode (make payload type)
  /-- A change in place, which neither makes an iterator nor moves one. -/
  | edit {place : Nat} {f : Object → Object} :
      (∀ o, (f o).loan = o.loan) →
      (∀ o cursor, (f o).payload = .iterator cursor → o.payload = .iterator cursor) →
      FairCode (Hands.edit place f)
  /-- Any operation but a step of an iterator, -/
  | request {env : Environment (Hands (Ledger τ))} {request : Request} :
      (∀ hook, env.hooks.onFailure = some hook → ∀ cause, FairCode (hook cause)) →
      (∀ hook, env.hooks.onUnsupported = some hook →
        ∀ op a b outcome, FairCode (hook op a b outcome)) →
      (∀ evaluator, env.evaluator = some evaluator →
        ∀ code args, FairCode (env.natives code evaluator args)) →
      (∀ evaluator, env.evaluator = some evaluator →
        ∀ f args, FairCode (evaluator.run f args)) →
      (∀ a, request ≠ .unary .next a) → FairCode (request.run env)
  /-- which is noted. -/
  | next {hooks : Hooks (Hands (Ledger τ))} {a : Ref} :
      (∀ hook, hooks.onFailure = some hook → ∀ cause, FairCode (hook cause)) →
      (∀ hook, hooks.onUnsupported = some hook →
        ∀ op a b outcome, FairCode (hook op a b outcome)) →
      FairCode (Ledger.next hooks a)

/-- The states that a run of such a host can come to. -/
inductive Recorded {τ : Type} : World (Hands (Ledger τ)) → Prop
  | start (own : τ) : Recorded (.initial { own := { own } })
  | step {α : Type} {w : World (Hands (Ledger τ))} {x : Action (Hands (Ledger τ)) α} :
      Recorded w → FairCode x → Recorded (x.after w)
  | reclaim {w : World (Hands (Ledger τ))} {roots : List ObjId} :
      Recorded w → (∀ g ∈ w.host.guards, ∀ i, g.held = some i → i ∈ roots) →
      Recorded { w with heap := w.heap.collect roots }

/-! ## Noting a step -/

section Noting

variable {hooks : Hooks (Hands (Ledger τ))} {a : Ref} {w w' : World (Hands (Ledger τ))}

namespace Ledger

theorem next_of_success {v : ObjId} (h : Ref.next hooks a w = .ok (.success v) w') :
    Ledger.next hooks a w =
      .ok (.success v) { w' with host.own := w'.host.own.give a } := by
  have hattempt : (Ref.next hooks a).attempt w = .ok (.ok (.success v)) w' := by
    simp [Action.attempt, h]
  exact Action.bind_of_ok hattempt _

theorem next_of_ok {outcome : Outcome} (h : Ref.next hooks a w = .ok outcome w')
    (hs : ∀ v, outcome ≠ .success v) : Ledger.next hooks a w = .ok outcome w' := by
  have hattempt : (Ref.next hooks a).attempt w = .ok (.ok outcome) w' := by
    simp [Action.attempt, h]
  refine (Action.bind_of_ok hattempt _).trans ?_
  cases outcome with
  | success v => exact absurd rfl (hs v)
  | _ => rfl

theorem next_of_error {e : Abort} (h : Ref.next hooks a w = .error e w') :
    Ledger.next hooks a w = .error e
      (if a.bind w.heap.ahead? = some none then
        { w' with host.own := w'.host.own.lose a } else w') := by
  have hattempt : (Ref.next hooks a).attempt w = .ok (.error e) w' := by
    simp [Action.attempt, h]
  refine (Action.bind_of_ok hattempt _).trans ?_
  dsimp only
  split <;> rfl

/-- Where nothing is given and no null slot is ahead there is nothing to note. -/
theorem after_next (hahead : a.bind w.heap.ahead? ≠ some none)
    (hs : ∀ v w', Ref.next hooks a w ≠ .ok (.success v) w') :
    (Ledger.next hooks a).after w = (Ref.next hooks a).after w := by
  cases h : Ref.next hooks a w with
  | ok outcome w' =>
    have hnot : ∀ v, outcome ≠ .success v := by
      rintro v rfl
      exact hs v w' h
    rw [Action.after_of_ok h, Action.after_of_ok (next_of_ok h hnot)]
  | error e w' =>
    rw [Action.after_of_error h, Action.after_of_error (next_of_error h), if_neg hahead]

end Ledger

end Noting

/-! ## A ledger that is right -/

section Counted

variable {w w' : World (Hands (Ledger τ))} {i : ObjId} {cursor cursor' : Cursor}

/-- Every iterator is where its notes say, and nothing is noted of what was never made. -/
structure World.Counted (w : World (Hands (Ledger τ))) : Prop where
  position : ∀ i cursor, w.heap.contents i = some (.iterator cursor) →
    cursor.position = w.host.own.given (some i) + w.host.own.lost (some i)
  unborn : ∀ i, w.heap.size ≤ i.index →
    w.host.own.given (some i) = 0 ∧ w.host.own.lost (some i) = 0

/-- The ledger stays right if it does not change, no iterator is moved and those that are
    new are at the beginning. -/
theorem World.Counted.keep (hc : w.Counted) (hgiven : w'.host.own.given = w.host.own.given)
    (hlost : w'.host.own.lost = w.host.own.lost) (hsize : w.heap.size ≤ w'.heap.size)
    (hcursors : ∀ i cursor, w'.heap.contents i = some (.iterator cursor) →
      w.heap.contents i = some (.iterator cursor) ∨
        w.heap.size ≤ i.index ∧ cursor.position = 0) : w'.Counted where
  position i cursor hi := by
    rw [hgiven, hlost]
    rcases hcursors i cursor hi with hold | ⟨hnew, hp⟩
    · exact hc.position i cursor hold
    · rw [hp, (hc.unborn i hnew).1, (hc.unborn i hnew).2]
  unborn i hi := by
    rw [hgiven, hlost]
    exact hc.unborn i (hsize.trans hi)

theorem World.Counted.collect (hc : w.Counted) (roots : List ObjId) :
    World.Counted { w with heap := w.heap.collect roots } := by
  have hwithin := Heap.within_collect w.heap roots
  refine hc.keep rfl rfl hwithin.size.ge fun i cursor hi => ?_
  obtain ⟨o, ho, hp⟩ := Option.map_eq_some_iff.1 hi
  exact .inl (by rw [Heap.contents_of_get? (hwithin.get? i o ho), hp])

/-- The ledger is right after a step that is noted, and any other that stays in place. -/
theorem World.Counted.moved (hc : w.Counted) (hi : w.heap.contents i = some (.iterator cursor))
    {l : Ledger τ} (hposition : cursor'.position = l.given (some i) + l.lost (some i))
    (hgiven : ∀ j ≠ i, l.given (some j) = w.host.own.given (some j))
    (hlost : ∀ j ≠ i, l.lost (some j) = w.host.own.lost (some j)) :
    World.Counted { w.moved i cursor' with host.own := l } where
  position j c hj := by
    rcases World.of_contents_moved hj with ⟨rfl, hcursor⟩ | ⟨hji, hold⟩
    · cases hcursor
      exact hposition
    · rw [hc.position j c hold, hgiven j hji, hlost j hji]
  unborn j hj := by
    have hsize : w.heap.size ≤ j.index := by simpa using hj
    have hji : j ≠ i := by
      rintro rfl
      exact absurd (Heap.lt_size_of_contents hi) (by omega)
    rw [hgiven j hji, hlost j hji]
    exact hc.unborn j hsize

end Counted

end ValueEngine

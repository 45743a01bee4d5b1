/-
  Value engine — all or nothing.

  What writes to an object checks first: by the time it changes anything nothing can go
  wrong any more. So an operation that fails, or is left, has changed no object, and one
  that succeeds has changed its receiver alone.

  * `Action.Arrives`: what an action comes to, on both ways out, and its rules.
  * `Amended`: worlds between which one object changed.
  * `Atomic`: actions that amend an object if they succeed, and nothing otherwise.
  * `append_atomic`, `store_atomic`, `bindAttribute_atomic`, `unbindAttribute_atomic`:
    the operations that do.
  * `next_amends`: a step of an iterator, which may have moved when it is left.
-/
import ValueEngine.Proofs.Iteration.Advance

namespace ValueEngine

variable {σ α β : Type}

/-- An action that, begun in a world, comes to a value and a world as `done` says, or is
    left in a world as `left` says. -/
def Action.Arrives (x : Action σ α) (w : World σ) (done : α → World σ → Prop)
    (left : World σ → Prop) : Prop :=
  match x w with
  | .ok a w' => done a w'
  | .error _ w' => left w'

namespace Action.Arrives

variable {x : Action σ α} {w v : World σ} {done done' : α → World σ → Prop}
  {left left' : World σ → Prop}

theorem of_ok {a : α} (h : x w = .ok a v) (hd : done a v) : x.Arrives w done left := by
  simpa only [Action.Arrives, h] using hd

theorem of_error {e : Abort} (h : x w = .error e v) (hl : left v) : x.Arrives w done left := by
  simpa only [Action.Arrives, h] using hl

theorem mono (h : x.Arrives w done left) (hd : ∀ a v, done a v → done' a v)
    (hl : ∀ v, left v → left' v) : x.Arrives w done' left' := by
  unfold Action.Arrives at h ⊢
  cases hr : x w with
  | ok a v =>
    rw [hr] at h
    exact hd a v h
  | error e v =>
    rw [hr] at h
    exact hl v h

theorem bind {f : α → Action σ β} {done : β → World σ → Prop}
    (hx : x.Arrives w (fun a v => (f a).Arrives v done left) left) :
    (x >>= f).Arrives w done left := by
  unfold Action.Arrives at hx
  cases hr : x w with
  | ok a v =>
    rw [hr] at hx
    rwa [Action.Arrives, Action.bind_of_ok hr]
  | error e v =>
    rw [hr] at hx
    exact of_error (Action.bind_of_error hr f) hx

/-- What holds on both ways out holds afterwards. -/
theorem after {P : World σ → Prop} (h : x.Arrives w (fun _ => P) P) : P (x.after w) := by
  unfold Action.Arrives at h
  unfold Action.after
  cases hr : x w with
  | ok a v => rwa [hr] at h
  | error e v => rwa [hr] at h

/-- An object that can be lent is, and is given back on both ways out. -/
theorem lent {access : Access} {i : ObjId} {o : Object} {l : Loan}
    {body : ObjId → Object → Action σ α} (ho : w.heap.get? i = some o)
    (hl : access.acquire o.loan = .ok l)
    (hb : (body i { o with loan := l }).Arrives (w.lent i o l)
      (fun a v => done a (v.endLoan access i)) fun v => left (v.endLoan access i)) :
    (lend access (some i) body).Arrives w done left := by
  unfold Action.Arrives at hb
  cases hr : body i { o with loan := l } (w.lent i o l) with
  | ok a v =>
    rw [hr] at hb
    exact of_ok (lend_of_ok ho hl hr) hb
  | error e v =>
    rw [hr] at hb
    exact of_error (lend_of_error ho hl hr) hb

/-- An object is lent, and given back on both ways out, or nothing happens at all. -/
theorem lend {access : Access} {r : Ref} {body : ObjId → Object → Action σ α} (hleft : left w)
    (hb : ∀ i o l, r = some i → w.heap.get? i = some o → access.acquire o.loan = .ok l →
      (body i { o with loan := l }).Arrives (w.lent i o l)
        (fun a v => done a (v.endLoan access i)) fun v => left (v.endLoan access i)) :
    (lend access r body).Arrives w done left := by
  cases hr : r.bind w.heap.get? with
  | none => exact of_error (lend_of_dead hr) hleft
  | some o =>
    obtain ⟨i, rfl, ho⟩ := Option.bind_eq_some_iff.1 hr
    cases hl : access.acquire o.loan with
    | error e => exact of_error (lend_of_refused ho hl) hleft
    | ok l => exact lent ho hl (hb i o l rfl ho hl)

/-- A failure changes no object, however it ends. -/
theorem fail {hooks : Hooks σ} {done : Outcome → World σ → Prop} {cause : Failure}
    (hh : hooks.Within (Action.Leads Still)) (hd : ∀ v, Still w v → done (.failure cause) v)
    (hl : ∀ v, Still w v → left v) : (fail hooks cause).Arrives w done left := by
  obtain ⟨v, hv, h | ⟨-, e, h⟩⟩ := fail_still hh cause w
  · exact of_ok h (hd v hv)
  · exact of_error h (hl v hv)

theorem replaceOrFail {hooks : Hooks σ} {done : Outcome → World σ → Prop} {i : ObjId}
    {result : Except Failure Payload} (hh : hooks.Within (Action.Leads Still))
    (hd : ∀ q, result = .ok q →
      done (.success noneId) (w.edited i fun o => { o with payload := q }))
    (hf : ∀ cause v, Still w v → done (.failure cause) v) (hl : ∀ v, Still w v → left v) :
    (replaceOrFail hooks i result).Arrives w done left := by
  cases result with
  | ok q => exact of_ok rfl (hd q rfl)
  | error cause => exact fail hh (hf cause) hl

end Action.Arrives

/-! ## Changes of one object -/

/-- Worlds between which the object behind a reference changed in some way, and nothing
    else did. -/
def Amended (r : Ref) (change : Object → Object → Prop) (w w' : World σ) : Prop :=
  ∃ i o o', r = some i ∧ w.heap.get? i = some o ∧ change o o' ∧ w'.heap = w.heap.set i o'

/-- An action that amends an object if it succeeds, and nothing otherwise. -/
def Atomic (succeeded : α → Prop) (r : Ref) (change : Object → Object → Prop) (x : Action σ α)
    (w : World σ) : Prop :=
  x.Arrives w (fun a w' => (succeeded a → Amended r change w w') ∧ (¬succeeded a → Still w w'))
    (Still w)

/-- To put the value another way. -/
theorem Atomic.map {succeeded : α → Prop} {succeeded' : β → Prop} {r : Ref}
    {change : Object → Object → Prop} {x : Action σ α} {w : World σ}
    (h : Atomic succeeded r change x w) (g : α → β) (hg : ∀ a, succeeded' (g a) ↔ succeeded a) :
    Atomic succeeded' r change (do return g (← x)) w := by
  refine .bind (h.mono (fun a v ha => .of_ok rfl ?_) fun v hv => hv)
  simpa only [hg] using ha

/-- However it ends, what is atomic has changed nothing or the one object. -/
theorem Atomic.after {succeeded : α → Prop} {r : Ref} {change : Object → Object → Prop}
    {x : Action σ α} {w : World σ} (h : Atomic succeeded r change x w) :
    Still w (x.after w) ∨ Amended r change w (x.after w) := by
  refine Action.Arrives.after (P := fun v => Still w v ∨ Amended r change w v) ?_
  refine h.mono (fun a v ⟨hs, hf⟩ => ?_) fun v hv => .inl hv
  rcases Classical.em (succeeded a) with ha | ha
  · exact .inr (hs ha)
  · exact .inl (hf ha)

/-- Whether an outcome is a success. -/
def Outcome.Succeeded : Outcome → Prop
  | success _ => True
  | _ => False

variable {hooks : Hooks σ} {w : World σ} {change : Object → Object → Prop} {i : ObjId} {o : Object}

theorem amended_edited {f : Object → Object} (ho : w.heap.get? i = some o)
    (hc : change o (f o)) : Amended (some i) change w (w.edited i f) :=
  ⟨i, o, f o, rfl, ho, hc, by rw [World.edited, Heap.update, ho]⟩

/-- A loan for writing under which the object is changed. -/
theorem amended_lent {f : Object → Object} {l : Loan} (ho : w.heap.get? i = some o)
    (hl : Access.write.acquire o.loan = .ok l) (hf : LoanBlind f) (hc : change o (f o)) :
    Amended (some i) change w (((w.lent i o l).edited i f).endLoan .write i) := by
  rw [World.endLoan_edited ho hl hf]
  exact amended_edited ho hc

/-! ## Operations -/

theorem bindAttribute_atomic (r : Ref) (name : Bytes) (value : Ref)
    (hchange : ∀ i o v, r = some i → w.heap.get? i = some o → value = some v →
      change o { o with attributes := o.attributes.insert name v }) :
    Atomic (fun _ => True) r change (Ref.bindAttribute r name value) w := by
  refine .lend rfl fun i o l hr ho hl => ?_
  subst hr
  cases value with
  | none => exact .of_error rfl (still_lent ho hl rfl)
  | some v =>
    refine .of_ok rfl ⟨fun _ => ?_, fun h => absurd trivial h⟩
    exact amended_lent ho hl (fun _ _ => rfl) (hchange i o v rfl ho rfl)

section Failing

variable (hh : hooks.Within (Action.Leads Still))
include hh

theorem replaceOrFail_atomic (r : Ref) (f : Payload → Except Failure Payload)
    (hchange : ∀ i o q, r = some i → w.heap.get? i = some o → f o.payload = .ok q →
      change o { o with payload := q }) :
    Atomic Outcome.Succeeded r change
      (withWrite r fun i o => replaceOrFail hooks i (f o.payload)) w := by
  refine .lend rfl fun i o l hr ho hl => ?_
  subst hr
  refine .replaceOrFail hh (fun q hq => ⟨fun _ => ?_, fun h => absurd trivial h⟩)
    (fun cause v hv => ⟨False.elim, fun _ => still_lent ho hl hv⟩) fun v hv => still_lent ho hl hv
  exact amended_lent ho hl (fun _ _ => rfl) (hchange i o q rfl ho hq)

theorem append_atomic (r value : Ref)
    (hchange : ∀ i o v q, r = some i → w.heap.get? i = some o → value = some v →
      o.payload.appended? (some v) = .ok q → change o { o with payload := q }) :
    Atomic Outcome.Succeeded r change (Ref.append hooks r value) w := by
  cases value with
  | none => exact .of_error rfl rfl
  | some v =>
    exact replaceOrFail_atomic hh r (·.appended? (some v)) fun i o q hr ho =>
      hchange i o v q hr ho rfl

theorem store_atomic (r key value : Ref)
    (hchange : ∀ i o k p v q, r = some i → w.heap.get? i = some o → key = some k →
      w.heap.contents k = some p → value = some v → o.payload.stored? p (some v) = .ok q →
      change o { o with payload := q }) :
    Atomic Outcome.Succeeded r change (Ref.store hooks r key value) w := by
  cases value with
  | none => exact .of_error rfl rfl
  | some v =>
    refine .bind ?_
    rcases peek_cases key w with ⟨e, h⟩ | ⟨k, p, loan, rfl, hp, h⟩
    · exact .of_error h rfl
    · exact .of_ok h <| replaceOrFail_atomic hh r (·.stored? p.payload (some v))
        fun i o q hr ho => hchange i o k p.payload v q hr ho rfl (Heap.contents_of_get? hp) rfl

theorem unbindAttribute_atomic (r : Ref) (name : Bytes)
    (hchange : ∀ i o, r = some i → w.heap.get? i = some o → name ∈ o.attributes.keys →
      change o { o with attributes := o.attributes.erase name }) :
    Atomic Outcome.Succeeded r change (Ref.unbindAttribute hooks r name) w := by
  have herase : Atomic (σ := σ) (· = none) r change (withWrite r fun i o => do
      if Table.contains name o.attributes then
        unbindOwn i name
        return none
      else return some o.kind) w := by
    refine .lend rfl fun i o l hr ho hl => ?_
    subst hr
    split
    · rename_i hcontains
      have hname : name ∈ o.attributes.keys := Table.contains_iff.1 hcontains
      exact .of_ok rfl ⟨fun _ => amended_lent ho hl (fun _ _ => rfl) (hchange i o rfl ho hname),
        fun hn => absurd rfl hn⟩
    · exact .of_ok rfl ⟨nofun, fun _ => still_lent ho hl rfl⟩
  refine .bind (herase.mono (fun missing v h => ?_) fun v hv => hv)
  cases missing with
  | none => exact .of_ok rfl ⟨fun _ => h.1 rfl, fun hn => absurd trivial hn⟩
  | some kind =>
    have hv : Still w v := h.2 nofun
    exact .fail hh (fun u hu => ⟨False.elim, fun _ => hu.trans hv⟩) fun u hu => hu.trans hv

/-- A step of an iterator moves it, or changes nothing, however it ends. The iterator moves
    before its element is handed over, so it may have moved when the step is left. -/
theorem next_amends (r : Ref)
    (hchange : ∀ i o cursor position exhausted, r = some i → w.heap.get? i = some o →
      o.payload = .iterator cursor →
      change o { o with payload := .iterator { cursor with
        position := position, exhausted := exhausted } }) :
    Still w ((Ref.next hooks r).after w) ∨ Amended r change w ((Ref.next hooks r).after w) := by
  refine Action.Arrives.after (P := fun v => Still w v ∨ Amended r change w v) ?_
  refine .lend (.inl rfl) fun i o l hr ho hl => ?_
  subst hr
  cases hp : o.payload with
  | iterator cursor =>
    dsimp only
    refine .lend (.inl (still_lent ho hl rfl)) fun t p m ht htp hm => ?_
    dsimp only
    split
    · rename_i elements _
      let moving (o : Object) : Object :=
        { o with payload := o.payload.movedTo (cursor.next elements).1 }
      have hmoved : Amended (some i) change w
          (((((w.lent i o l).lent t p m).edited i moving).endLoan .read t).endLoan .write i) := by
        rw [World.endLoan_edited htp hm fun _ _ => rfl, World.endLoan_edited ho hl fun _ _ => rfl]
        refine amended_edited ho ?_
        simp only [moving, hp]
        exact hchange i o cursor _ _ rfl ho hp
      refine .bind (.of_ok rfl ?_)
      rcases stepOutcome_cases (σ := σ) (cursor.next elements).2 with ⟨outcome, h⟩ | ⟨e, h⟩
      · exact .of_ok (h _) (.inr hmoved)
      · exact .of_error (h _) (.inr hmoved)
    · exact .fail hh (fun v hv => .inl (still_lent ho hl (still_lent htp hm hv)))
        fun v hv => .inl (still_lent ho hl (still_lent htp hm hv))
  | _ =>
    exact .fail hh (fun v hv => .inl (still_lent ho hl hv)) fun v hv => .inl (still_lent ho hl hv)

end Failing

end ValueEngine

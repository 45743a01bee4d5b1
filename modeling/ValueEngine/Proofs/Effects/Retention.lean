/-
  Value engine — what leaves every object as it was.

  What only reads lends objects and takes them back, makes new ones, and touches no other.
  So the objects that there were are afterwards what they were, who has them included,
  on every way out.

  * `Retains`: worlds between which no object changed.
  * `Procedure.retains`: procedures that write nothing.
  * `Request.leads_retains`, `fresh_leads_retains`, `make_leads_retains`: requests that
    only read, and the ways to make objects.
-/
import ValueEngine.Proofs.Procedure.Lending

namespace ValueEngine

variable {σ α β : Type} {u v w : World σ}

/-- Every object that was live is as it was, with the loans that it had. -/
def Retains (w w' : World σ) : Prop := ∀ i o, w.heap.get? i = some o → w'.heap.get? i = some o

namespace Retains

theorem refl (w : World σ) : Retains w w := fun _ _ h => h

theorem trans (huv : Retains u v) (hvw : Retains v w) : Retains u w := fun i o h =>
  hvw i o (huv i o h)

theorem of_still (h : Still w v) : Retains w v := fun i o ho => by
  have hheap : v.heap = w.heap := h
  rwa [hheap]

theorem allocate (w : World σ) (o : Object) :
    Retains w { w with heap := (w.heap.allocate o).2 } := fun _ _ h =>
  Heap.get?_allocate_of_some h o

/-- What is kept while an object is lent is kept when it is given back. -/
theorem endLoan {access : Access} {i : ObjId} {o : Object} {l : Loan}
    (ho : w.heap.get? i = some o) (hl : access.acquire o.loan = .ok l)
    (h : Retains (w.lent i o l) v) : Retains w (v.endLoan access i) := by
  intro j p hp
  by_cases hji : j = i
  · subst hji
    cases ho.symm.trans hp
    have hlent := h j _ (World.get?_lent_self ho l)
    rw [World.endLoan, Heap.get?_update_self, hlent, Option.map_some,
      Access.release_of_acquire hl]
  · have hlent := h j p (World.get?_lent_of_ne hp (Ne.symm hji) l)
    rwa [World.endLoan, Heap.get?_update_of_ne hji]

theorem bind {x : Action σ α} {f : α → Action σ β} (hx : x.Leads Retains)
    (hf : ∀ a, (f a).Leads Retains) : (x >>= f).Leads Retains := by
  intro w
  rcases Action.after_bind x f w with hafter | ⟨a, -, hafter⟩
  · rw [hafter]
    exact hx w
  · rw [hafter]
    exact (hx w).trans (hf a _)

theorem lend {access : Access} {r : Ref} {body : ObjId → Object → Action σ α}
    (hb : ∀ i o, (body i o).Leads Retains) : (lend access r body).Leads Retains := by
  intro w
  cases ht : takeLoan access r w with
  | error e w' =>
    rw [after_lend_of_refused ht, takeLoan_error ht]
    exact refl w
  | ok p w' =>
    obtain ⟨i, o⟩ := p
    obtain ⟨p, loan, hp, hl, rfl, rfl⟩ := takeLoan_ok ht
    rw [after_lend ht]
    exact endLoan hp hl (hb i _ (w.lent i p loan))

theorem peek (r : Ref) : (peek r : Action σ Object).Leads Retains := by
  intro w
  rcases peek_cases r w with ⟨e, h⟩ | ⟨i, o, loan, -, -, h⟩
  · rw [Action.after_of_error h]
    exact refl w
  · rw [Action.after_of_ok h]
    exact refl w

end Retains

theorem make_leads_retains (payload : Option Payload) (type : Ref) :
    (make payload type : Action σ ObjId).Leads Retains := by
  intro w
  cases payload with
  | none => exact .refl w
  | some payload => exact .allocate w _

theorem fresh_leads_retains (payload : Payload) :
    (fresh payload : Action σ ObjId).Leads Retains := by
  intro w
  unfold fresh
  cases payload.missingPart? with
  | some e => exact .refl w
  | none => exact make_leads_retains _ _ w

/-- **Procedures that write nothing leave every object as it was**, if the code of the
    host that they enter does. -/
theorem Procedure.retains {foreign : ∀ {α : Type}, Action σ α → Prop}
    (hforeign : ∀ {α : Type} {x : Action σ α}, foreign x → x.Leads Retains)
    {x : Action σ α} (h : Procedure foreign False x) : x.Leads Retains := by
  induction h with
  | pure a => exact Retains.refl
  | abort e _ => exact Retains.refl
  | bind _ _ ihx ihf => exact Retains.bind ihx ihf
  | lend _ _ _ ih => exact Retains.lend ih
  | peek _ _ ih => exact Retains.bind (Retains.peek _) ih
  | size _ ih => exact Retains.bind Retains.refl fun heap => ih heap.size
  | textLimit _ ih => exact Retains.bind Retains.refl fun settings => ih settings.textLimit
  | trace level message => exact fun w => .of_still (World.heap_traced level message w)
  | fresh _ => exact fresh_leads_retains _
  | iterator _ _ _ ih =>
    refine Retains.bind (Retains.peek _) fun o => ?_
    split
    · exact Retains.bind (fresh_leads_retains _) fun _ => Retains.refl
    · exact ih o
  | change hw => exact hw.elim
  | foreign hx => exact hforeign hx

/-- **Requests that only read leave every object as it was.** -/
theorem Request.leads_retains {env : Environment σ} (h : env.hooks.Within (Action.Leads Still))
    {request : Request} (hr : request.Reads) : (request.run env).Leads Retains :=
  (Request.procedure_of_reads h hr).retains fun hx w => .of_still (hx w)

end ValueEngine

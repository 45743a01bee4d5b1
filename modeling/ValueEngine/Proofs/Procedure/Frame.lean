/-
  Value engine — what a procedure leaves as it was.

  A relation between worlds that every step respects, and that can be chained, holds
  between the worlds before and after any procedure.

  * `Action.Leads`: an action whose end is related to its beginning.
  * `Procedure.leads`: procedures lead where their steps do.
  * `Survives`, `SameContents`: no object is lost; none is changed but for who has it.
  * `Still`: every object is as it was.
  * `Retargets`: iterators keep their targets, which were there before them.
  * `Request.leads_survives`, `Request.leads_sameContents`, `Request.founded`: requests
    lose nothing, change nothing if they only read, and put no iterator over itself.
-/
import ValueEngine.Proofs.Procedure.Operations
import ValueEngine.Proofs.Reading.Contents

namespace ValueEngine

variable {σ α β : Type}

/-- An action that ends, on every way out, in a world related to the one it began in. -/
def Action.Leads (R : World σ → World σ → Prop) (action : Action σ α) : Prop :=
  ∀ w, R w (action.after w)

/-- A relation that the steps of procedures respect. Changes count only where objects
    may be written. -/
structure StepRelation (writes : Prop) (R : World σ → World σ → Prop) : Prop where
  refl : ∀ w, R w w
  trans : ∀ {u v w}, R u v → R v w → R u w
  /-- A loan, given or ended. -/
  loan : ∀ w i (f : Loan → Loan),
    R w { w with heap := w.heap.update i fun o => { o with loan := f o.loan } }
  trace : ∀ w level message, R w (w.traced level message)
  /-- A new object. If it is an iterator, it is at the beginning of a target that is there
      already. -/
  allocate : ∀ w o,
    (∀ cursor, o.payload = .iterator cursor →
      ∃ t, cursor = { target := some t } ∧ (w.heap.get? t).isSome) →
    R w { w with heap := (w.heap.allocate o).2 }
  change : writes → ∀ w i f, KeepsTarget f → R w { w with heap := w.heap.update i f }

namespace Action.Leads

variable {R : World σ → World σ → Prop} {writes : Prop} (hR : StepRelation writes R)
include hR

theorem pure (a : α) : (Pure.pure a : Action σ α).Leads R := hR.refl

theorem bind {x : Action σ α} {f : α → Action σ β} (hx : x.Leads R) (hf : ∀ a, (f a).Leads R) :
    (x >>= f).Leads R := by
  intro w
  have h := hx w
  rcases after_bind x f w with hafter | ⟨a, -, hafter⟩
  · rwa [hafter]
  · rw [hafter]
    exact hR.trans h (hf a _)

theorem freshValue_of_live {payload : Payload} {w : World σ}
    (hp : ∀ cursor, payload = .iterator cursor →
      ∃ t, cursor = { target := some t } ∧ (w.heap.get? t).isSome) :
    R w ((freshValue payload : Action σ Outcome).after w) := by
  unfold freshValue ValueEngine.fresh
  cases payload.missingPart? with
  | some e => exact hR.refl w
  | none => exact hR.allocate w _ hp

theorem fresh {payload : Payload} (hp : ∀ cursor, payload ≠ .iterator cursor) :
    (fresh payload : Action σ ObjId).Leads R := by
  intro w
  unfold ValueEngine.fresh
  cases payload.missingPart? with
  | some e => exact hR.refl w
  | none => exact hR.allocate w _ fun cursor h => absurd h (hp cursor)

theorem takeLoan {access : Access} {r : Ref} {w w' : World σ} {p : ObjId × Object}
    (h : takeLoan access r w = .ok p w') : R w w' := by
  obtain ⟨i, o⟩ := p
  obtain ⟨p, loan, hp, -, -, rfl⟩ := takeLoan_ok h
  have hu : w.heap.set i { p with loan := loan } =
      w.heap.update i fun o => { o with loan := loan } := by simp [Heap.update, hp]
  rw [hu]
  exact hR.loan w i fun _ => loan

theorem lend {access : Access} {r : Ref} {body : ObjId → Object → Action σ α}
    (hb : ∀ i o, (body i o).Leads R) : (lend access r body).Leads R := by
  intro w
  cases ht : ValueEngine.takeLoan access r w with
  | error e w' =>
    rw [after_lend_of_refused ht, takeLoan_error ht]
    exact hR.refl w
  | ok p w' =>
    obtain ⟨i, o⟩ := p
    rw [after_lend ht]
    exact hR.trans (takeLoan hR ht) (hR.trans (hb i o w') (hR.loan _ i access.release))

theorem peek (r : Ref) : (peek r : Action σ Object).Leads R :=
  lend hR fun _ o => pure hR o

/-- An iterator is made over an object that is still there. -/
theorem iterator {r : Ref} {p : Object → Bool} {f : Object → Action σ Outcome}
    (hf : ∀ o, (f o).Leads R) : (ValueEngine.peek r >>= fun o =>
      if p o then freshValue (.iterator { target := r }) else f o).Leads R := by
  intro w
  have h := peek hR r w
  rcases after_bind (ValueEngine.peek r)
    (fun o => if p o then freshValue (.iterator { target := r }) else f o) w with
    hafter | ⟨o, hr, hafter⟩
  · rwa [hafter]
  · rw [hafter]
    refine hR.trans h ?_
    split
    · exact freshValue_of_live hR fun cursor hc => by
        cases hc
        obtain ⟨t, rfl, hlive⟩ := live_of_peek hr
        exact ⟨t, rfl, hlive⟩
    · exact hf o _

end Action.Leads

/-- **Procedures lead where their steps do.** -/
theorem Procedure.leads {R : World σ → World σ → Prop} {writes : Prop}
    {foreign : ∀ {α : Type}, Action σ α → Prop} (hR : StepRelation writes R)
    (hforeign : ∀ {α : Type} {x : Action σ α}, foreign x → x.Leads R)
    {x : Action σ α} (h : Procedure foreign writes x) : x.Leads R := by
  induction h with
  | pure a => exact hR.refl
  | abort e _ => exact hR.refl
  | bind _ _ ihx ihf => exact ihx.bind hR ihf
  | lend _ _ _ ih => exact .lend hR ih
  | peek _ _ ih => exact .bind hR (.peek hR _) ih
  | size _ ih => exact .bind hR hR.refl fun heap => ih heap.size
  | textLimit _ ih => exact .bind hR hR.refl fun settings => ih settings.textLimit
  | trace level message => exact fun w => hR.trace w level message
  | fresh hp => exact .fresh hR hp
  | iterator _ _ _ ih => exact .iterator hR ih
  | change hw _ hf => exact fun w => hR.change hw w _ _ hf
  | foreign hx => exact hforeign hx

/-! ## No object is lost -/

/-- Every object that was live still is. -/
def Survives (w w' : World σ) : Prop := ∀ i, (w.heap.get? i).isSome → (w'.heap.get? i).isSome

theorem Survives.update (w : World σ) (i : ObjId) (f : Object → Object) :
    Survives w { w with heap := w.heap.update i f } := by
  intro j hj
  by_cases hji : j = i
  · subst hji
    simpa [Heap.get?_update_self] using hj
  · rwa [Heap.get?_update_of_ne hji]

theorem Survives.allocate (w : World σ) (o : Object) :
    Survives w { w with heap := (w.heap.allocate o).2 } := by
  intro i hi
  obtain ⟨p, hp⟩ := Option.isSome_iff_exists.1 hi
  simp [Heap.get?_allocate_of_some hp]

theorem survives_steps (writes : Prop) : StepRelation writes (Survives (σ := σ)) where
  refl _ _ h := h
  trans huv hvw i h := hvw i (huv i h)
  loan w i _ := .update w i _
  trace w _ _ i h := by simpa using h
  allocate w o _ := .allocate w o
  change _ w i f _ := .update w i f

/-! ## No object is changed -/

/-- Every object is as it was. -/
def Still (w w' : World σ) : Prop := w'.heap = w.heap

/-- Every object that was live has the contents it had; who has it may differ. -/
def SameContents (w w' : World σ) : Prop :=
  ∀ i o, w.heap.get? i = some o → ∃ loan, w'.heap.get? i = some { o with loan := loan }

theorem sameContents_steps : StepRelation False (SameContents (σ := σ)) where
  refl _ _ o h := ⟨o.loan, h⟩
  trans huv hvw i o h := by
    obtain ⟨_, hl⟩ := huv i o h
    obtain ⟨l, hl⟩ := hvw i _ hl
    exact ⟨l, hl⟩
  loan w i f j o h := by
    by_cases hji : j = i
    · subst hji
      exact ⟨f o.loan, by simp [Heap.get?_update_self, h]⟩
    · exact ⟨o.loan, by rwa [Heap.get?_update_of_ne hji]⟩
  trace w _ _ _ o h := ⟨o.loan, by simpa using h⟩
  allocate w p _ _ o h := ⟨o.loan, Heap.get?_allocate_of_some h p⟩
  change h := h.elim

/-! ## Iterators keep their targets -/

/-- Every iterator has the target that it had before, or is new and has one that was
    there before it. -/
def Retargets (w w' : World σ) : Prop :=
  ∀ i cursor, w'.heap.contents i = some (.iterator cursor) →
    (∃ c, w.heap.contents i = some (.iterator c) ∧ c.target = cursor.target) ∨
      ∃ t, cursor.target = some t ∧ t.index < i.index

theorem Retargets.refl (w : World σ) : Retargets w w := fun _ cursor h => .inl ⟨cursor, h, rfl⟩

theorem Retargets.update (w : World σ) (i : ObjId) {f : Object → Object} (hf : KeepsTarget f) :
    Retargets w { w with heap := w.heap.update i f } := by
  intro j cursor h
  rcases Heap.of_contents_update h with ⟨rfl, o, ho, hcursor⟩ | ⟨-, hold⟩
  · obtain ⟨c, hc, ht⟩ := hf o cursor hcursor
    exact .inl ⟨c, by rw [Heap.contents_of_get? ho, hc], ht⟩
  · exact .inl ⟨cursor, hold, rfl⟩

theorem retargets_steps (writes : Prop) : StepRelation writes (Retargets (σ := σ)) where
  refl := .refl
  trans huv hvw i cursor h := by
    rcases hvw i cursor h with ⟨c, hc, ht⟩ | hnew
    · rcases huv i c hc with ⟨c', hc', ht'⟩ | ⟨t, ht', hlt⟩
      · exact .inl ⟨c', hc', ht'.trans ht⟩
      · exact .inr ⟨t, ht ▸ ht', hlt⟩
    · exact .inr hnew
  loan w i f := .update w i (.of_payload fun _ => rfl)
  trace w level message i cursor h := by
    rw [World.heap_traced] at h
    exact .inl ⟨cursor, h, rfl⟩
  allocate w o ho i cursor h := by
    obtain ⟨p, hp, hcursor⟩ := Option.map_eq_some_iff.1 h
    by_cases hi : i = (w.heap.allocate o).1
    · subst hi
      rw [Heap.get?_allocate_self] at hp
      cases hp
      obtain ⟨t, rfl, hlive⟩ := ho cursor hcursor
      obtain ⟨q, hq⟩ := Option.isSome_iff_exists.1 hlive
      exact .inr ⟨t, rfl, Heap.lt_size_of_get? hq⟩
    · rw [Heap.get?_allocate_of_ne hi] at hp
      exact .inl ⟨cursor, by rw [Heap.contents, hp, Option.map_some, hcursor], rfl⟩
  change _ w i f hf := .update w i hf

/-- No iterator is over itself. -/
def Heap.Founded (h : Heap) : Prop :=
  ∀ i cursor, h.contents i = some (.iterator cursor) → cursor.target ≠ some i

theorem Heap.Founded.retargets {w w' : World σ} (hf : w.heap.Founded) (h : Retargets w w') :
    w'.heap.Founded := by
  intro i cursor hi
  rcases h i cursor hi with ⟨c, hc, ht⟩ | ⟨t, ht, hlt⟩
  · rw [← ht]
    exact hf i c hc
  · rw [ht]
    rintro ⟨⟩
    exact Nat.lt_irrefl _ hlt

/-- Where there is no iterator there is none over itself. -/
theorem Heap.founded_of_kind {h : Heap}
    (hk : ∀ cell ∈ h.cells.toList, ∀ o, cell = some o → o.kind ≠ .iterator) : h.Founded := by
  intro i cursor hi
  obtain ⟨o, ho, hp⟩ := Option.map_eq_some_iff.1 hi
  have hno := Heap.forall_get? hk ho
  rw [Object.kind, hp] at hno
  exact absurd rfl hno

theorem Heap.founded_initial : Heap.initial.Founded := founded_of_kind (by decide)

/-! ## Requests -/

section Requests

variable {env : Environment σ}

theorem Request.leads_survives (h : env.Within (Action.Leads Survives)) (request : Request) :
    (request.run env).Leads Survives :=
  (Request.procedure h request).leads (survives_steps True) fun hx => hx

theorem Request.leads_sameContents (h : env.hooks.Within (Action.Leads SameContents))
    {request : Request} (hr : request.Reads) : (request.run env).Leads SameContents :=
  (Request.procedure_of_reads h hr).leads sameContents_steps fun hx => hx

/-- **No request puts an iterator over itself**, unless host code does. -/
theorem Request.founded (h : env.Within (Action.Leads Retargets)) (request : Request)
    {w : World σ} (hf : w.heap.Founded) : ((request.run env).after w).heap.Founded :=
  hf.retargets ((Request.procedure h request).leads (retargets_steps True) (fun hx => hx) w)

end Requests

end ValueEngine

/-
  Value engine — what hosts with a ledger leave alone.

  While an operation has an object for writing, no code of the host that it enters can be
  lent it, and the host has no guard for it, so it is left as it was. And whatever the host
  does, steps of iterators included, the ledger stays right.

  * `Respects`, `Respectful`: what is lent to operations under way is left alone, and the
    ledger stays right; a rule for each construct.
  * `Procedure.fair`, `Request.fair`, `Ledger.next_fair`: all operations.
  * `FairCode.fair`, `Recorded.exact_counted`: all that a host does, and whole runs.
-/
import ValueEngine.Proofs.Effects.Newborn
import ValueEngine.Proofs.Iteration.Ledger

namespace ValueEngine

variable {τ α β : Type}

/-! ## What is respected -/

section Respects

variable {w w' : World (Hands (Ledger τ))} {theirs : ObjId → Prop} {i : ObjId} {o : Object}

/-- What operations under way have for themselves is as it was, and the ledger is right if
    it was before. -/
structure Respects (theirs : ObjId → Prop) (w w' : World (Hands (Ledger τ))) : Prop where
  spared : ∀ i, theirs i → w'.heap.get? i = w.heap.get? i
  counted : w.Counted → w'.Counted

namespace Respects

theorem refl (w : World (Hands (Ledger τ))) : Respects theirs w w := ⟨fun _ _ => rfl, id⟩

theorem trans {v : World (Hands (Ledger τ))} (h : Respects theirs w v)
    (h' : Respects theirs v w') : Respects theirs w w' where
  spared i hi := (h'.spared i hi).trans (h.spared i hi)
  counted hc := h'.counted (h.counted hc)

theorem of_heap (hheap : w'.heap = w.heap) (hgiven : w'.host.own.given = w.host.own.given)
    (hlost : w'.host.own.lost = w.host.own.lost) : Respects theirs w w' where
  spared i _ := by rw [hheap]
  counted hc := hc.keep hgiven hlost (by rw [hheap]) fun i cursor hi => .inl (hheap ▸ hi)

/-- A change of an object that is not theirs. -/
theorem update {f : Object → Object} (hi : ¬theirs i)
    (hf : ∀ o cursor, (f o).payload = .iterator cursor → o.payload = .iterator cursor) :
    Respects theirs w { w with heap := w.heap.update i f } where
  spared j hj := Heap.get?_update_of_ne (by rintro rfl; exact hi hj) f
  counted hc := by
    refine hc.keep rfl rfl (Heap.size_update ..).ge fun j cursor hj => .inl ?_
    rcases Heap.of_contents_update hj with ⟨rfl, o, ho, hp⟩ | ⟨-, hold⟩
    · rw [Heap.contents_of_get? ho, hf o cursor hp]
    · exact hold

theorem of_payload {f : Object → Object} (hi : ¬theirs i)
    (hf : ∀ o, (f o).payload = o.payload) :
    Respects theirs w { w with heap := w.heap.update i f } :=
  update hi fun o cursor h => by rwa [← hf]

/-- A new object. What is theirs was there before. -/
theorem allocate (hlive : ∀ i, theirs i → (w.heap.get? i).isSome)
    (ho : ∀ cursor, o.payload = .iterator cursor → cursor.position = 0) :
    Respects theirs w { w with heap := (w.heap.allocate o).2 } where
  spared i hi := by
    obtain ⟨p, hp⟩ := Option.isSome_iff_exists.1 (hlive i hi)
    rw [hp, Heap.get?_allocate_of_some hp]
  counted hc := by
    refine hc.keep rfl rfl (by simp [Heap.size, Heap.allocate]) fun j cursor hj => ?_
    rcases Heap.of_contents_allocate hj with ⟨rfl, hp⟩ | hold
    · exact .inr ⟨Nat.le_refl w.heap.size, ho cursor hp⟩
    · exact .inl hold

end Respects

/-! ## Respectful actions -/

/-- An action that respects what is theirs if it is lent for writing to operations that
    are under way. -/
def Respectful (theirs : ObjId → Prop) (x : Action (Hands (Ledger τ)) α) : Prop :=
  ∀ (lent : List Guard) (w : World (Hands (Ledger τ))), Exact (lent ++ w.host.guards) w.heap →
    (∀ i, theirs i → { held := some i, access := .write } ∈ lent) →
    Respects theirs w (x.after w)

/-- What is lent to operations for writing cannot be lent again. -/
theorem Exact.not_lent {lent gs : List Guard} {h : Heap} {access : Access} {l : Loan}
    (he : Exact (lent ++ gs) h) (ho : h.get? i = some o) (hl : access.acquire o.loan = .ok l) :
    { held := some i, access := .write } ∉ lent := by
  intro hmem
  rw [(he.exclusive_iff ho).2 (List.mem_append_left _ hmem)] at hl
  cases access <;> cases hl

/-- Nor does the host have a guard for it. -/
theorem Exact.not_guarded {lent gs : List Guard} {h : Heap} {g : Guard}
    (he : Exact (lent ++ gs) h) (hg : g ∈ gs) (hi : g.held = some i) :
    { held := some i, access := .write } ∉ lent := by
  intro hmem
  obtain ⟨o, ho⟩ := Option.isSome_iff_exists.1 (he.held g (List.mem_append_right _ hg) i hi)
  have htally := he.loans i o ho
  rw [(he.exclusive_iff ho).2 (List.mem_append_left _ hmem)] at htally
  obtain ⟨hread, hwrite⟩ := htally
  rw [Guard.tally, List.count_append] at hread hwrite
  have hlent := List.count_pos_iff.2 hmem
  have hkept := List.count_pos_iff.2 hg
  obtain ⟨held, access⟩ := g
  cases hi
  cases access <;> omega

/-- An object that is lent is not theirs. -/
theorem Respects.takeLoan {lent : List Guard} {access : Access} {r : Ref}
    (he : Exact (lent ++ w.host.guards) w.heap)
    (ht : ∀ i, theirs i → { held := some i, access := .write } ∈ lent)
    (h : takeLoan access r w = .ok (i, o) w') : ¬theirs i ∧ Respects theirs w w' := by
  obtain ⟨p, l, hp, hl, -, rfl⟩ := takeLoan_ok h
  have hi : ¬theirs i := fun hi => he.not_lent hp hl (ht i hi)
  have hset : w.heap.set i { p with loan := l } =
      w.heap.update i fun o => { o with loan := l } := by simp [Heap.update, hp]
  rw [hset]
  exact ⟨hi, .of_payload hi fun _ => rfl⟩

namespace Respectful

theorem of_after {x : Action (Hands (Ledger τ)) α} (h : ∀ w, Respects theirs w (x.after w)) :
    Respectful theirs x := fun _ w _ _ => h w

theorem pure (a : α) : Respectful theirs (Pure.pure a : Action (Hands (Ledger τ)) α) :=
  of_after .refl

theorem abort (e : Abort) : Respectful theirs (Action.abort e : Action (Hands (Ledger τ)) α) :=
  of_after .refl

theorem bind {x : Action (Hands (Ledger τ)) α} {f : α → Action (Hands (Ledger τ)) β}
    (ha : Accounted Hands.guards x) (hx : Respectful theirs x)
    (hf : ∀ a, Respectful theirs (f a)) : Respectful theirs (x >>= f) := by
  intro lent w he ht
  have h := hx lent w he ht
  rcases Action.after_bind x f w with hafter | ⟨a, -, hafter⟩
  · rwa [hafter]
  · rw [hafter]
    exact h.trans (hf a lent _ (ha lent w he) ht)

theorem trace (level : Int) (message : Bytes) :
    Respectful theirs (trace level message : Action (Hands (Ledger τ)) Unit) :=
  of_after fun w => .of_heap (w.heap_traced level message)
    (congrArg (·.own.given) (w.host_traced level message))
    (congrArg (·.own.lost) (w.host_traced level message))

theorem map {x : Action (Hands (Ledger τ)) α} (hx : Respectful theirs x) (g : α → β) :
    Respectful theirs (do return g (← x)) := by
  intro lent w he ht
  rw [Action.after_map]
  exact hx lent w he ht

theorem allocate (ho : ∀ cursor, o.payload = .iterator cursor → cursor.position = 0) :
    Respectful theirs (Action.allocate o : Action (Hands (Ledger τ)) ObjId) :=
  fun _ _ he ht => .allocate
    (fun i hi => he.held _ (List.mem_append_left _ (ht i hi)) i rfl) ho

theorem fresh {payload : Payload}
    (hp : ∀ cursor, payload = .iterator cursor → cursor.position = 0) :
    Respectful theirs (fresh payload : Action (Hands (Ledger τ)) ObjId) := by
  unfold ValueEngine.fresh
  split
  · exact abort _
  · exact allocate hp

theorem lend {access : Access} {r : Ref} {body : ObjId → Object → Action (Hands (Ledger τ)) α}
    (hb : ∀ i o, ¬theirs i → Respectful theirs (body i o)) :
    Respectful theirs (lend access r body) := by
  intro lent w he ht
  cases htake : takeLoan access r w with
  | error e v =>
    rw [after_lend_of_refused htake, takeLoan_error htake]
    exact .refl w
  | ok taken v =>
    obtain ⟨i, o⟩ := taken
    obtain ⟨hi, hv⟩ := Respects.takeLoan he ht htake
    obtain ⟨he', hhost⟩ := Accounted.exact_of_takeLoan htake he
    have hbody := hb i o hi ({ held := some i, access } :: lent) v (by rwa [hhost])
      fun j hj => List.mem_cons_of_mem _ (ht j hj)
    rw [after_lend htake]
    exact hv.trans (hbody.trans (.of_payload hi fun _ => rfl))

theorem peek (r : Ref) : Respectful theirs (peek r : Action (Hands (Ledger τ)) Object) :=
  lend fun _ o _ => pure o

end Respectful

/-- Actions that keep loans exact and respect whatever is lent to operations. -/
structure Fair (x : Action (Hands (Ledger τ)) α) : Prop where
  accounted : Accounted Hands.guards x
  respectful : ∀ theirs, Respectful theirs x

/-- **Procedures that write nothing are fair** if the host code that they enter is. -/
theorem Procedure.fair {x : Action (Hands (Ledger τ)) α} (h : Procedure Fair False x) : Fair x := by
  refine ⟨h.accounted Fair.accounted, fun theirs => ?_⟩
  induction h with
  | pure a => exact .pure a
  | abort e _ => exact .abort e
  | bind hx _ ihx ihf => exact .bind (hx.accounted Fair.accounted) ihx ihf
  | lend _ _ _ ih => exact .lend fun i o _ => ih i o
  | peek _ _ ih => exact .bind (.peek _) (.peek _) ih
  | size _ ih => exact fun lent w => ih w.heap.size lent w
  | textLimit _ ih => exact fun lent w => ih w.settings.textLimit lent w
  | trace level message => exact .trace level message
  | fresh hp => exact .fresh fun cursor h => absurd h (hp cursor)
  | iterator _ _ _ ih =>
    refine .bind (.peek _) (.peek _) fun o => ?_
    split
    · exact .map (.fresh fun cursor h => by cases h; rfl) _
    · exact ih o
  | change hw _ _ => exact hw.elim
  | foreign hx => exact hx.respectful theirs

end Respects

/-! ## Operations -/

section Operations

variable {theirs : ObjId → Prop} {hooks : Hooks (Hands (Ledger τ))} (hh : hooks.Within Fair)
  {w : World (Hands (Ledger τ))} {i : ObjId} {o : Object} {cursor : Cursor}
include hh

theorem fail_fair (cause : Failure) : Fair (fail hooks cause) :=
  Procedure.fair (fail_values hh cause).procedure

namespace Respectful

theorem replaceOrFail {result : Except Failure Payload} (hi : ¬theirs i)
    (hresult : ∀ q cursor, result = .ok q → q ≠ .iterator cursor) :
    Respectful theirs (replaceOrFail hooks i result) := by
  cases result with
  | error cause => exact (fail_fair hh cause).respectful theirs
  | ok q =>
    have hedit : Respectful theirs (Action.setPayload i q : Action (Hands (Ledger τ)) Unit) :=
      .of_after fun w => .update hi fun o cursor h => absurd h (hresult q cursor rfl)
    exact .map hedit _

theorem append (a value : Ref) : Respectful theirs (Ref.append hooks a value) := by
  cases value with
  | none => exact .abort _
  | some v =>
    show Respectful theirs (ValueEngine.lend .write a fun i collection =>
      ValueEngine.replaceOrFail hooks i (collection.payload.appended? (some v)))
    exact .lend fun i o hi => replaceOrFail hh hi fun q cursor => appended?_ne_iterator cursor

theorem store (a key value : Ref) : Respectful theirs (Ref.store hooks a key value) := by
  cases value with
  | none => exact .abort _
  | some v =>
    refine .bind (x := ValueEngine.peek key) (.peek key) (.peek key) fun k => .lend fun i o hi => ?_
    exact replaceOrFail hh hi fun q cursor => stored?_ne_iterator cursor

theorem unbindAttribute (a : Ref) (name : Bytes) :
    Respectful theirs (Ref.unbindAttribute hooks a name) := by
  have hunbind : ∀ i, ¬theirs i →
      Respectful theirs (unbindOwn i name : Action (Hands (Ledger τ)) Unit) :=
    fun i hi => .of_after fun w => .of_payload hi fun _ => rfl
  refine .bind (.lend fun i o => ?_) (.lend fun i o hi => ?_) fun missing => ?_
  · split
    · exact .bind (.change fun _ => rfl) fun _ => .pure _
    · exact .pure _
  · split
    · exact .map (hunbind i hi) _
    · exact .pure _
  · split
    · exact .pure _
    · exact (fail_fair hh _).respectful theirs

omit hh in
theorem bindAttribute (a : Ref) (name : Bytes) (value : Ref) :
    Respectful theirs (Ref.bindAttribute a name value : Action (Hands (Ledger τ)) Unit) := by
  refine .lend fun i o hi => ?_
  cases value with
  | none => exact .abort _
  | some v => exact .of_after fun w => .of_payload hi fun _ => rfl

end Respectful

omit hh in
/-- Every request but a step of an iterator. -/
theorem Request.fair {env : Environment (Hands (Ledger τ))} (henv : env.Within Fair)
    {request : Request} (hnext : ∀ a, request ≠ .unary .next a) : Fair (request.run env) := by
  by_cases hreads : request.Reads
  · exact (Request.procedure_of_reads henv.hooks hreads).fair
  refine ⟨(Request.procedure henv request).accounted Fair.accounted, fun theirs => ?_⟩
  cases request with
  | binary verb a b =>
    cases verb with
    | append => exact .map (.append henv.hooks a b) _
    | _ => exact absurd trivial hreads
  | unary verb a =>
    cases verb with
    | next => exact absurd rfl (hnext a)
    | _ => exact absurd trivial hreads
  | store a key value => exact .map (.store henv.hooks a key value) _
  | bindAttribute a name value => exact .map (.bindAttribute a name value) _
  | unbindAttribute a name => exact .map (.unbindAttribute henv.hooks a name) _
  | call f args => exact .map ((call_values henv f args).procedure.fair.respectful theirs) _
  | _ => exact absurd trivial hreads

end Operations

/-! ## Steps -/

section Steps

variable {theirs : ObjId → Prop} {hooks : Hooks (Hands (Ledger τ))} {a : Ref}
  {w w' : World (Hands (Ledger τ))} {i : ObjId} {o : Object} {cursor cursor' : Cursor}

theorem Fails.arrives {σ : Type} {hooks : Hooks σ} {cause : Failure} {x : Action σ Outcome}
    (hx : Fails hooks cause x) (w : World σ) :
    x.Arrives w (fun outcome _ => outcome = .failure cause) fun _ => True := by
  have hfail := fun w => (Action.Arrives.fail_or_throws hooks cause w).mono
    (fun _ _ => id) fun _ _ => trivial
  rcases hx with rfl | ⟨t, rfl⟩
  · exact hfail w
  · exact .lend trivial fun _ _ _ _ _ _ => hfail _

theorem Fails.fair {cause : Failure} {x : Action (Hands (Ledger τ)) Outcome}
    (hh : hooks.Within Fair) (hx : Fails hooks cause x) : Fair x := by
  have hfail := fail_fair hh cause
  rcases hx with rfl | ⟨t, rfl⟩
  · exact hfail
  · exact ⟨.lend fun _ _ => hfail.accounted, fun theirs => .lend fun _ _ _ =>
      hfail.respectful theirs⟩

/-- A step with nothing ahead gives nothing. -/
theorem next_ne_success {σ : Type} {hooks : Hooks σ} {w w' : World σ}
    (hahead : w.heap.ahead? i = none) (v : ObjId) :
    Ref.next hooks (some i) w ≠ .ok (.success v) w' := by
  intro hrun
  cases stepped hooks w i with
  | refused _ h => cases h.symm.trans hrun
  | @failed x cause _ h hx =>
    have harrives : (withWrite (some i) fun _ _ => x).Arrives w
        (fun outcome _ => outcome = .failure cause) fun _ => True :=
      .lend trivial fun _ _ _ _ _ _ => hx.arrives _
    rw [Action.Arrives, ← h, hrun] at harrives
    cases harrives
  | moved _ _ _ hnext h =>
    rw [← hnext, hahead] at h
    cases h.symm.trans hrun

theorem Respects.moved (hi : ¬theirs i) (hcontents : w.heap.contents i = some (.iterator cursor))
    {l : Ledger τ}
    (hposition : w.Counted → cursor'.position = l.given (some i) + l.lost (some i))
    (hgiven : ∀ j ≠ i, l.given (some j) = w.host.own.given (some j))
    (hlost : ∀ j ≠ i, l.lost (some j) = w.host.own.lost (some j)) :
    Respects theirs w { w.moved i cursor' with host.own := l } where
  spared j hj := Heap.get?_update_of_ne (by rintro rfl; exact hi hj) _
  counted hc := hc.moved hcontents (hposition hc) hgiven hlost

namespace Ledger

/-- What is noted of a step of an iterator that moves is where it has moved to. -/
theorem next_respects_of_moved {elements : List Ref} (hi : ¬theirs i)
    (hcontents : w.heap.contents i = some (.iterator cursor))
    (hahead : w.heap.ahead? i = (cursor.next elements).2)
    (hrun : Ref.next hooks (some i) w =
      stepOutcome (cursor.next elements).2 (w.moved i (cursor.next elements).1)) :
    Respects theirs w ((Ledger.next hooks (some i)).after w) := by
  have hposition : w.Counted → cursor.position =
      w.host.own.given (some i) + w.host.own.lost (some i) :=
    fun hc => hc.position i cursor hcontents
  have hother : ∀ {j : ObjId}, j ≠ i → (some j : Ref) ≠ some i :=
    fun hne h => hne (Option.some.inj h)
  cases helement : (cursor.next elements).2 with
  | none =>
    rw [helement, Cursor.next_of_ended helement] at hrun
    rw [Action.after_of_ok (next_of_ok hrun nofun)]
    exact .moved hi hcontents hposition (fun _ _ => rfl) fun _ _ => rfl
  | some element =>
    rw [helement, Cursor.next_of_passed helement] at hrun
    cases element with
    | none =>
      rw [Action.after_of_error (next_of_error hrun), Option.bind_some, hahead, if_pos helement]
      refine .moved hi hcontents (fun hc => ?_) (fun _ _ => rfl)
        fun j hj => lost_lose_of_ne _ _ (hother hj)
      rw [given_lose, lost_lose_self, hposition hc]
      rfl
    | some v =>
      rw [Action.after_of_ok (next_of_success hrun)]
      refine .moved hi hcontents (fun hc => ?_)
        (fun j hj => given_give_of_ne _ _ (hother hj)) fun _ _ => rfl
      rw [lost_give, given_give_self, hposition hc]
      exact Nat.add_right_comm ..

theorem next_accounted (hh : hooks.Within Fair) (a : Ref) :
    Accounted Hands.guards (Ledger.next hooks a) := by
  have hnext : Procedure Fair True (Ref.next hooks a) :=
    (next_values hh trivial a).procedure
  have hnote : ∀ f : Ledger τ → Ledger τ, Accounted Hands.guards (Hands.remember f) :=
    fun f => .modify (fun _ => rfl) fun _ => rfl
  refine .bind (Accounted.get.bind fun _ => .pure _) fun heap => ?_
  refine .bind (hnext.accounted Fair.accounted).attempt fun result => ?_
  split
  · exact .bind (hnote _) fun _ => .pure _
  · exact .pure _
  · dsimp only
    split
    · exact .bind (hnote _) fun _ => .abort _
    · exact .abort _

theorem next_respectful (hh : hooks.Within Fair) (a : Ref) :
    Respectful theirs (Ledger.next hooks a) := by
  intro lent w he ht
  cases a with
  | none => exact .refl w
  | some i =>
    have hidle : w.heap.ahead? i = none → (Ledger.next hooks (some i)).after w =
        (Ref.next hooks (some i)).after w := fun hahead =>
      after_next (by simp [hahead]) fun v w' => next_ne_success hahead v
    cases stepped hooks w i with
    | refused hahead hrun =>
      rw [hidle hahead, Action.after_of_error hrun]
      exact .refl w
    | @failed x cause hahead hrun hx =>
      have hlend : Respectful theirs (withWrite (some i) fun _ _ => x) :=
        .lend fun _ _ _ => (hx.fair hh).respectful theirs
      rw [hidle hahead, Action.after, hrun]
      exact hlend lent w he ht
    | moved ho hl hp hahead hrun =>
      have hgranted : Access.write.acquire Loan.free = .ok .exclusive := rfl
      have hi : ¬theirs i := fun hi => he.not_lent ho (hl ▸ hgranted) (ht i hi)
      exact next_respects_of_moved hi (by rw [Heap.contents_of_get? ho, hp]) hahead hrun

/-- **A step that is noted is fair.** -/
theorem next_fair (hh : hooks.Within Fair) (a : Ref) : Fair (Ledger.next hooks a) :=
  ⟨next_accounted hh a, fun _ => next_respectful hh a⟩

end Ledger

end Steps

/-! ## All that a host does -/

section Runs

variable {theirs : ObjId → Prop} {w w' : World (Hands (Ledger τ))}

namespace Respectful

theorem take (access : Access) (r : Ref) :
    Respectful theirs (Hands.take access r : Action (Hands (Ledger τ)) Unit) := by
  intro lent w he ht
  cases htake : Hands.take access r w with
  | error e v =>
    rw [Action.after_of_error htake, Hands.take_error htake]
    exact .refl w
  | ok u v =>
    obtain ⟨i, o, v, hv, rfl⟩ := Hands.take_ok htake
    rw [Action.after_of_ok htake]
    exact (Respects.takeLoan he ht hv).2.trans (.of_heap rfl rfl rfl)

theorem move (place : Nat) :
    Respectful theirs (Hands.move place : Action (Hands (Ledger τ)) Unit) := by
  refine of_after fun w => ?_
  cases hg : w.host.guards[place]? with
  | none =>
    rw [Hands.move_of_none hg]
    exact .refl w
  | some g =>
    rw [Hands.move_of_some hg]
    exact .of_heap rfl rfl rfl

theorem release (place : Nat) :
    Respectful theirs (Hands.release place : Action (Hands (Ledger τ)) Unit) := by
  intro lent w he ht
  cases hg : w.host.guards[place]? with
  | none =>
    rw [Hands.release_of_none hg]
    exact .refl w
  | some g =>
    obtain ⟨held, access⟩ := g
    cases held with
    | none =>
      rw [Hands.release_of_moved hg rfl]
      exact .of_heap rfl rfl rfl
    | some i =>
      have hi : ¬theirs i := fun hi => he.not_guarded (List.mem_of_getElem? hg) rfl (ht i hi)
      have hended : Respects theirs w (w.endLoan access i) := .of_payload hi fun _ => rfl
      rw [Hands.release_of_held hg]
      exact hended.trans (.of_heap rfl rfl rfl)

theorem edit {place : Nat} {f : Object → Object}
    (hf : ∀ o cursor, (f o).payload = .iterator cursor → o.payload = .iterator cursor) :
    Respectful theirs (Hands.edit place f : Action (Hands (Ledger τ)) Unit) := by
  intro lent w he ht
  rcases Hands.edit_cases place f w with hafter | ⟨i, hg, hafter⟩
  · rw [hafter]
    exact .refl w
  · rw [hafter]
    exact .update (fun hi => he.not_guarded hg rfl (ht i hi)) hf

end Respectful

/-- **All that such a host does is fair.** -/
theorem FairCode.fair {x : Action (Hands (Ledger τ)) α} (h : FairCode x) : Fair x := by
  induction h with
  | pure a => exact ⟨.pure a, fun _ => .pure a⟩
  | abort e => exact ⟨.abort e, fun _ => .abort e⟩
  | bind _ _ ihx ihf =>
    exact ⟨ihx.accounted.bind fun a => (ihf a).accounted, fun theirs =>
      .bind ihx.accounted (ihx.respectful theirs) fun a => (ihf a).respectful theirs⟩
  | attempt _ ih =>
    refine ⟨ih.accounted.attempt, fun theirs lent w he ht => ?_⟩
    rw [Action.after_attempt]
    exact ih.respectful theirs lent w he ht
  | look => exact ⟨.get, fun _ => .of_after .refl⟩
  | remember f =>
    exact ⟨.modify (fun _ => rfl) fun _ => rfl, fun _ => .of_after fun w => .of_heap rfl rfl rfl⟩
  | configure f =>
    exact ⟨.modify (fun _ => rfl) fun _ => rfl, fun _ => .of_after fun w => .of_heap rfl rfl rfl⟩
  | trace level message =>
    exact ⟨.modify (fun w => by simp) fun w => by simp, fun _ => .trace level message⟩
  | take access r => exact ⟨Hands.take_accounted access r, fun _ => .take access r⟩
  | move place => exact ⟨Hands.move_accounted place, fun _ => .move place⟩
  | release place => exact ⟨Hands.release_accounted place, fun _ => .release place⟩
  | lend _ ih =>
    exact ⟨.lend fun i o => (ih i o).accounted,
      fun theirs => .lend fun i o _ => (ih i o).respectful theirs⟩
  | @make payload type hp =>
    refine ⟨.make type payload, fun theirs => ?_⟩
    cases payload with
    | none => exact .abort _
    | some p => exact .allocate fun cursor h => hp cursor (congrArg some h)
  | @edit place f hl hf =>
    refine ⟨?_, fun theirs => .edit hf⟩
    refine .bind .get fun w => ?_
    split
    · exact .change hl
    · exact .pure _
  | request _ _ _ _ hnext ihf ihu ihn ihe =>
    have henv : Environment.Within Fair _ := ⟨⟨ihf, ihu⟩, ihn, ihe⟩
    exact Request.fair henv hnext
  | next _ _ ihf ihu => exact Ledger.next_fair ⟨ihf, ihu⟩ _

/-- In every state of a run loans are exact, and the ledger is right. -/
theorem Recorded.exact_counted (h : Recorded w) : Exact w.host.guards w.heap ∧ w.Counted := by
  induction h with
  | start own =>
    refine ⟨exact_initial, fun i cursor hi => ?_, fun _ _ => ⟨rfl, rfl⟩⟩
    obtain ⟨o, ho, hp⟩ := Option.map_eq_some_iff.1 hi
    have hno : ∀ cell ∈ Heap.initial.cells.toList, ∀ o, cell = some o → o.kind ≠ .iterator := by
      decide
    exact absurd (by rw [Object.kind, hp]; rfl) (Heap.forall_get? hno ho)
  | step _ hx ih =>
    have hnobody := hx.fair.respectful (fun _ => False) [] _ ih.1 fun _ h => h.elim
    exact ⟨hx.fair.accounted [] _ ih.1, hnobody.counted ih.2⟩
  | reclaim _ hroots ih => exact ⟨ih.1.collect hroots, ih.2.collect _⟩

end Runs

end ValueEngine

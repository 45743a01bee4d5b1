/-
  Value engine — what may happen between two steps of an iterator.

  Between the steps of the iterators over a list or a tuple a host may do whatever it
  likes, except that it makes no slot of the sequence null: it asks for anything but a
  call, makes objects, takes guards and gives them back, changes lists, dictionaries and
  attributes in place. No iterator over the sequence is moved by that, and those that are
  new are at the beginning.

  * `Payload.Iterable`: sequences without null slots.
  * `Undisturbed`: worlds between which no iterator over an object was moved.
  * `Interlude`: what a host may do; `Interlude.undisturbed`.
-/
import ValueEngine.Guard
import ValueEngine.Proofs.Iteration.Advance
import ValueEngine.Proofs.Life.Collection

namespace ValueEngine

variable {σ α β : Type} {t i : ObjId} {o : Object} {p q : Payload} {w w' : World σ}

/-- A sequence that can be iterated over, without a null slot. -/
def Payload.Iterable (p : Payload) : Prop :=
  ∃ elements, p.elements? = some elements ∧ none ∉ elements

theorem Payload.Iterable.appended {v : ObjId} (hp : p.Iterable)
    (h : p.appended? (some v) = .ok q) : q.Iterable := by
  obtain ⟨elements, helements, hnull⟩ := hp
  cases p with
  | list xs =>
    cases h
    cases helements
    exact ⟨_, rfl, by simpa using hnull⟩
  | _ => cases h

theorem Payload.Iterable.stored {key : Payload} {v : ObjId} (hp : p.Iterable)
    (h : p.stored? key (some v) = .ok q) : q.Iterable := by
  obtain ⟨elements, helements, hnull⟩ := hp
  cases p with
  | list xs =>
    cases helements
    cases key with
    | integer index =>
      simp only [stored?] at h
      split at h <;> cases h
      refine ⟨_, rfl, fun hmem => ?_⟩
      rcases List.mem_or_eq_of_mem_set hmem with hmem | hmem
      · exact hnull hmem
      · cases hmem
    | _ => cases h
  | dict entries => cases helements
  | _ => cases h

/-! ## Undisturbed iterators -/

/-- Iterators over an object are where they were or are new and at the beginning, and the
    object is still a sequence, if it was one. -/
structure Undisturbed (t : ObjId) (w w' : World σ) : Prop where
  size : w.heap.size ≤ w'.heap.size
  target : ∀ p, w.heap.contents t = some p → p.Iterable →
    ∃ q, w'.heap.contents t = some q ∧ q.Iterable
  cursors : ∀ i cursor, w'.heap.contents i = some (.iterator cursor) → cursor.target = some t →
    w.heap.contents i = some (.iterator cursor) ∨
      w.heap.size ≤ i.index ∧ cursor = { target := some t }

namespace Undisturbed

theorem of_contents (hc : w'.heap.contents = w.heap.contents) (hs : w'.heap.size = w.heap.size) :
    Undisturbed t w w' where
  size := hs.ge
  target p hp hseq := ⟨p, hc ▸ hp, hseq⟩
  cursors _ _ h _ := .inl (hc ▸ h)

theorem of_still (h : Still w w') : Undisturbed t w w' :=
  of_contents (congrArg Heap.contents h) (congrArg Heap.size h)

theorem refl (w : World σ) : Undisturbed t w w := of_still rfl

theorem trans {v : World σ} (h : Undisturbed t w v) (h' : Undisturbed t v w') :
    Undisturbed t w w' where
  size := h.size.trans h'.size
  target p hp hseq := by
    obtain ⟨q, hq, hseq'⟩ := h.target p hp hseq
    exact h'.target q hq hseq'
  cursors i cursor hi ht := by
    rcases h'.cursors i cursor hi ht with hi' | ⟨hnew, rfl⟩
    · exact h.cursors i cursor hi' ht
    · exact .inr ⟨h.size.trans hnew, rfl⟩

/-- An object is changed, but no iterator over `t` is moved or made of it, and if it is
    `t` itself it stays a sequence without null slots. -/
theorem update {f : Object → Object}
    (hcursor : ∀ o cursor, w.heap.get? i = some o → (f o).payload = .iterator cursor →
      cursor.target = some t → o.payload = .iterator cursor)
    (hseq : ∀ o, w.heap.get? i = some o → i = t → o.payload.Iterable → (f o).payload.Iterable) :
    Undisturbed t w { w with heap := w.heap.update i f } where
  size := (Heap.size_update ..).ge
  target p hp hp' := by
    by_cases hit : i = t
    · subst hit
      obtain ⟨o, ho, rfl⟩ := Option.map_eq_some_iff.1 hp
      refine ⟨(f o).payload, ?_, hseq o ho rfl hp'⟩
      rw [Heap.contents_update_self, ho, Option.map_some]
    · exact ⟨p, by rwa [Heap.contents_update_of_ne (Ne.symm hit)], hp'⟩
  cursors j cursor hj ht := by
    rcases Heap.of_contents_update hj with ⟨rfl, o, ho, hpayload⟩ | ⟨-, hold⟩
    · exact .inl (by rw [Heap.contents_of_get? ho, hcursor o cursor ho hpayload ht])
    · exact .inl hold

/-- What leaves payloads alone. -/
theorem update_of_payload {f : Object → Object} (hf : ∀ o, (f o).payload = o.payload) :
    Undisturbed t w { w with heap := w.heap.update i f } :=
  update (fun o cursor _ h _ => by rw [← hf, h]) fun o _ _ h => by rwa [hf]

theorem allocate (h : ∀ cursor, o.payload = .iterator cursor → cursor.target = some t →
      cursor = { target := some t }) :
    Undisturbed t w { w with heap := (w.heap.allocate o).2 } where
  size := by simp [Heap.size, Heap.allocate]
  target p hp hseq := ⟨p, Heap.contents_allocate_of_some hp o, hseq⟩
  cursors j cursor hj ht := by
    rcases Heap.of_contents_allocate hj with ⟨rfl, hpayload⟩ | hold
    · exact .inr ⟨le_refl w.heap.size, h cursor hpayload ht⟩
    · exact .inl hold

theorem collect {roots : List ObjId} (ht : t ∈ roots) :
    Undisturbed t w { w with heap := w.heap.collect roots } where
  size := (Heap.within_collect ..).size.ge
  target p hp hseq := by
    obtain ⟨o, ho, rfl⟩ := Option.map_eq_some_iff.1 hp
    have hlive : (w.heap.collect roots).Live t :=
      Heap.live_collect_iff.2 ⟨Heap.live_of_get? ho, t, .inl ht, .refl⟩
    refine ⟨o.payload, ?_, hseq⟩
    rw [Heap.contents, (Heap.within_collect ..).get?_of_live hlive, ho, Option.map_some]
  cursors j cursor hj _ := by
    obtain ⟨o, ho, hpayload⟩ := Option.map_eq_some_iff.1 hj
    left
    rw [Heap.contents_of_get? ((Heap.within_collect ..).get? j o ho), hpayload]

theorem steps (t : ObjId) : StepRelation False (Undisturbed (σ := σ) t) where
  refl := refl
  trans := trans
  loan w i f := update_of_payload fun _ => rfl
  trace w level message := of_still (World.heap_traced ..)
  allocate w o ho := by
    refine allocate fun cursor hcursor htarget => ?_
    obtain ⟨t', rfl, -⟩ := ho cursor hcursor
    cases htarget
    rfl
  change h := h.elim

/-! ### Composition -/

theorem bind {x : Action σ α} {f : α → Action σ β} (hx : Undisturbed t w (x.after w))
    (hf : ∀ a v, x w = .ok a v → Undisturbed t v ((f a).after v)) :
    Undisturbed t w ((x >>= f).after w) := by
  cases h : x w with
  | ok a v =>
    rw [Action.after_of_ok h] at hx
    have hrun : (x >>= f).after w = (f a).after v := by
      simp only [Action.after, Action.bind_of_ok h]
    rw [hrun]
    exact hx.trans (hf a v h)
  | error e v =>
    rw [Action.after_of_error (Action.bind_of_error h f)]
    rwa [Action.after_of_error h] at hx

/-- What is done with an object that is lent begins with the contents that there were. -/
theorem lend {access : Access} {r : Ref} {body : ObjId → Object → Action σ α}
    (hb : ∀ i o v, r = some i → v.heap.contents = w.heap.contents → v.heap.get? i = some o →
      Undisturbed t v ((body i o).after v)) :
    Undisturbed t w ((lend access r body).after w) := by
  cases htake : takeLoan access r w with
  | error e v =>
    rw [after_lend_of_refused htake, takeLoan_error htake]
    exact refl w
  | ok a v =>
    obtain ⟨i, o⟩ := a
    obtain ⟨o', loan, ho', -, rfl, rfl⟩ := takeLoan_ok htake
    have hcontents := Heap.contents_set (p := { o' with loan := loan }) ho' rfl
    have htaken : Undisturbed t w { w with heap := w.heap.set i { o' with loan := loan } } :=
      of_contents hcontents (Heap.size_set ..)
    have hbody := hb i _ { w with heap := w.heap.set i { o' with loan := loan } }
      (ref_of_takeLoan htake) hcontents (Heap.get?_set_self (Heap.lt_size_of_get? ho') _)
    rw [after_lend htake]
    refine htaken.trans (hbody.trans ?_)
    exact update_of_payload fun _ => rfl

theorem peek (r : Ref) : Undisturbed t w ((peek r).after w) :=
  Action.Leads.peek (steps t) r w

theorem fail {hooks : Hooks σ} (hh : hooks.Within (Action.Leads Still)) (cause : Failure) :
    Undisturbed t w ((fail hooks cause).after w) := by
  obtain ⟨w', hw', h | ⟨-, e, h⟩⟩ := fail_still hh cause w
  · rw [Action.after_of_ok h]
    exact of_still hw'
  · rw [Action.after_of_error h]
    exact of_still hw'

/-! ### Operations that write -/

variable {hooks : Hooks σ} (hh : hooks.Within (Action.Leads Still))
include hh

theorem replaceOrFail {result : Except Failure Payload} (hi : w.heap.get? i = some o)
    (hcursor : ∀ q, result = .ok q → ∀ cursor, q ≠ .iterator cursor)
    (hseq : ∀ q, result = .ok q → o.payload.Iterable → q.Iterable) :
    Undisturbed t w ((replaceOrFail hooks i result).after w) := by
  cases result with
  | error cause => exact fail hh cause
  | ok q =>
    refine bind (update (fun _ cursor _ h _ => absurd h (hcursor q rfl cursor)) ?_)
      fun _ _ _ => refl _
    intro o' ho' _ hp
    rw [hi] at ho'
    cases ho'
    exact hseq q rfl hp

theorem append (a value : Ref) : Undisturbed t w ((Ref.append hooks a value).after w) := by
  cases value with
  | none => exact refl w
  | some v =>
    show Undisturbed t w ((ValueEngine.lend .write a fun i collection =>
      ValueEngine.replaceOrFail hooks i (collection.payload.appended? (some v))).after w)
    refine lend fun i o u _ _ ho => ?_
    exact replaceOrFail hh ho (fun q h cursor => appended?_ne_iterator cursor h)
      fun q h hp => hp.appended h

theorem store (a key value : Ref) : Undisturbed t w ((Ref.store hooks a key value).after w) := by
  cases value with
  | none => exact refl w
  | some v =>
    refine bind (peek key) fun k u _ => lend fun i o u' _ _ ho => ?_
    exact replaceOrFail hh ho (fun q h cursor => stored?_ne_iterator cursor h)
      fun q h hp => hp.stored h

theorem unbindAttribute (a : Ref) (name : Bytes) :
    Undisturbed t w ((Ref.unbindAttribute hooks a name).after w) := by
  refine bind (lend fun i o u _ _ _ => ?_) fun missing u _ => ?_
  · split
    · exact update_of_payload fun _ => rfl
    · exact refl u
  · cases missing with
    | none => exact refl u
    | some kind => exact fail hh _

/-- A step of an iterator over something else. -/
theorem next {a : Ref} (hover : ∀ i cursor, a = some i →
      w.heap.contents i = some (.iterator cursor) → cursor.target ≠ some t) :
    Undisturbed t w ((Ref.next hooks a).after w) := by
  refine lend fun i o u ha hu ho => ?_
  cases hp : o.payload with
  | iterator cursor =>
    have hi : u.heap.contents i = some (.iterator cursor) := by
      rw [Heap.contents_of_get? ho, hp]
    have htarget := hover i cursor ha (hu ▸ hi)
    refine lend fun j target v _ hv _ => ?_
    dsimp only
    split
    · have hpayload : ∀ o', v.heap.get? i = some o' → o'.payload = .iterator cursor := by
        intro o' ho'
        rw [← hv, Heap.contents_of_get? ho'] at hi
        exact Option.some.inj hi
      refine bind (update ?_ ?_) fun _ v' _ => ?_
      · intro o' c ho' hc ht
        simp only [hpayload o' ho', Payload.movedTo] at hc
        cases hc
        exact absurd ht htarget
      · rintro o' ho' - ⟨elements, helements, -⟩
        rw [hpayload o' ho'] at helements
        cases helements
      · rcases stepOutcome_cases (σ := σ) (cursor.next _).2 with ⟨outcome, h⟩ | ⟨e, h⟩
        · rw [Action.after_of_ok (h v')]
          exact refl v'
        · rw [Action.after_of_error (h v')]
          exact refl v'
    · exact fail hh _
  | _ => exact fail hh _

omit hh

theorem bindAttribute (a : Ref) (name : Bytes) (value : Ref) :
    Undisturbed t w ((Ref.bindAttribute a name value).after w) := by
  refine lend fun i o u _ _ _ => ?_
  cases value with
  | none => exact refl u
  | some v => exact update_of_payload fun _ => rfl

/-- Every request but a call, and but a step of an iterator over the sequence. -/
theorem request {env : Environment σ} {request : Request}
    (henv : env.hooks.Within (Action.Leads Still)) (hcall : request.CallsNothing)
    (hnext : ∀ i cursor, request = .unary .next (some i) →
      w.heap.contents i = some (.iterator cursor) → cursor.target ≠ some t) :
    Undisturbed t w ((request.run env).after w) := by
  by_cases hreads : request.Reads
  · exact (Request.procedure_of_reads henv hreads).leads (steps t) (fun hx w => of_still (hx w)) w
  have houtcome : ∀ {x : Action σ Outcome}, Undisturbed t w (x.after w) →
      Undisturbed t w ((do return Response.outcome (← x) : Action σ Response).after w) :=
    fun hx => bind hx fun _ _ _ => refl _
  cases request with
  | binary verb a b =>
    cases verb with
    | append => exact houtcome (append henv a b)
    | _ => exact absurd trivial hreads
  | unary verb a =>
    cases verb with
    | next => exact houtcome (next henv fun i cursor ha => hnext i cursor (ha ▸ rfl))
    | _ => exact absurd trivial hreads
  | store a key value => exact houtcome (store henv a key value)
  | bindAttribute a name value =>
    exact bind (bindAttribute a name value) fun _ _ _ => refl _
  | unbindAttribute a name => exact houtcome (unbindAttribute henv a name)
  | call => exact hcall.elim
  | _ => exact absurd trivial hreads

/-! ### Changes in place -/

theorem object_bind {g : Guard} {f : ObjId × Object → Action σ α}
    (hf : ∀ i o, w.heap.get? i = some o → Undisturbed t w ((f (i, o)).after w)) :
    Undisturbed t w ((g.object >>= f).after w) := by
  refine bind (by rw [Guard.after_object]; exact refl w) fun a v h => ?_
  obtain ⟨i, o⟩ := a
  obtain ⟨rfl, -, ho⟩ := Guard.object_ok h
  exact hf i o ho

theorem updateList {g : Guard} {f : List Ref → List Ref}
    (hf : ∀ elements, none ∉ elements → none ∉ f elements) :
    Undisturbed t w ((g.updateList f : Action σ Unit).after w) := by
  refine object_bind fun i o ho => ?_
  cases hp : o.payload with
  | list elements =>
    simp only [Object.toList, hp]
    refine update (fun _ cursor _ h _ => by cases h) fun o' ho' _ hseq => ?_
    rw [ho] at ho'
    cases ho'
    obtain ⟨xs, hxs, hnull⟩ := hseq
    rw [hp] at hxs
    cases hxs
    exact ⟨_, rfl, hf _ hnull⟩
  | _ =>
    simp only [Object.toList, hp]
    exact refl w

theorem updateDict {g : Guard} {f : Table Ref → Table Ref} :
    Undisturbed t w ((g.updateDict f : Action σ (Table Ref)).after w) := by
  refine object_bind fun i o ho => ?_
  cases hp : o.payload with
  | dict entries =>
    simp only [Object.toDict, hp]
    show Undisturbed t w ((do
      Action.setPayload i (.dict (f entries))
      return entries : Action σ (Table Ref)).after w)
    refine bind (update (fun _ cursor _ h _ => by cases h) fun o' ho' _ hseq => ?_)
      fun _ _ _ => refl _
    rw [ho] at ho'
    cases ho'
    obtain ⟨xs, hxs, -⟩ := hseq
    rw [hp] at hxs
    cases hxs
  | _ =>
    simp only [Object.toDict, hp]
    exact refl w

end Undisturbed

/-! ## Interludes -/

/-- What a host may do between two steps of the iterators over a sequence. Its hooks may
    throw but leave every object as it is. -/
inductive Interlude (t : ObjId) (w : World σ) : World σ → Prop
  /-- Any operation on any references but a call, and but a step of an iterator over the
      sequence. -/
  | request {env : Environment σ} {request : Request} :
      env.hooks.Within (Action.Leads Still) → request.CallsNothing →
      (∀ i cursor, request = .unary .next (some i) →
        w.heap.contents i = some (.iterator cursor) → cursor.target ≠ some t) →
      Interlude t w ((request.run env).after w)
  /-- A new object of any kind and type. Iterators are made at the beginning. -/
  | make {payload : Payload} {type : Ref} :
      (∀ cursor, payload = .iterator cursor → cursor = { target := cursor.target }) →
      Interlude t w ((make (some payload) type).after w)
  | fresh {payload : Payload} :
      (∀ cursor, payload = .iterator cursor → cursor = { target := cursor.target }) →
      Interlude t w ((fresh payload).after w)
  | guard (access : Access) (r : Ref) : Interlude t w ((Ref.guard access r).after w)
  | release (g : Guard) : Interlude t w (g.release.after w)
  | push (g : Guard) (value : ObjId) : Interlude t w ((g.push (some value)).after w)
  | truncate (g : Guard) (length : Nat) : Interlude t w ((g.truncate length).after w)
  | insertEntry (g : Guard) (key : Bytes) (value : Ref) :
      Interlude t w ((g.insertEntry key value).after w)
  | eraseEntry (g : Guard) (key : Bytes) : Interlude t w ((g.eraseEntry key).after w)
  | bindAttribute (g : Guard) (name : Bytes) (value : Ref) :
      Interlude t w ((g.bindAttribute name value).after w)
  | unbindAttribute (g : Guard) (name : Bytes) : Interlude t w ((g.unbindAttribute name).after w)
  /-- What nothing refers to is reclaimed; the host has a reference to the sequence. -/
  | reclaim {roots : List ObjId} :
      t ∈ roots → Interlude t w { w with heap := w.heap.collect roots }
  /-- Whatever the host does that leaves the objects alone. -/
  | still {w' : World σ} : Still w w' → Interlude t w w'

/-- **No interlude disturbs the iterators** over the sequence. -/
theorem Interlude.undisturbed (h : Interlude t w w') : Undisturbed t w w' := by
  cases h with
  | request henv hcall hnext => exact .request henv hcall hnext
  | make hcursor =>
    refine .allocate fun cursor hc ht => ?_
    rw [hcursor cursor hc, ht]
  | fresh hcursor =>
    unfold ValueEngine.fresh
    split
    · exact .refl w
    · refine .allocate fun cursor hc ht => ?_
      rw [hcursor cursor hc, ht]
  | guard access r =>
    refine .bind ?_ fun _ _ _ => .refl _
    cases htake : takeLoan access r w with
    | ok a v =>
      rw [Action.after_of_ok htake]
      exact Action.Leads.takeLoan (Undisturbed.steps t) htake
    | error e v =>
      rw [Action.after_of_error htake, takeLoan_error htake]
      exact .refl w
  | release g =>
    unfold Guard.release
    split
    · exact .update_of_payload fun _ => rfl
    · exact .refl w
  | push g value => exact .updateList fun elements h => by simpa using h
  | truncate g length => exact .updateList fun elements h hmem => h (List.mem_of_mem_take hmem)
  | insertEntry g key value => exact .bind .updateDict fun _ _ _ => .refl _
  | eraseEntry g key => exact .bind .updateDict fun _ _ _ => .refl _
  | bindAttribute g name value =>
    refine .object_bind fun i o _ => ?_
    cases value with
    | none => exact .refl w
    | some v => exact .update_of_payload fun _ => rfl
  | unbindAttribute g name =>
    exact .object_bind fun i o _ => .bind (.update_of_payload fun _ => rfl) fun _ _ _ => .refl _
  | reclaim ht => exact .collect ht
  | still h => exact .of_still h

end ValueEngine

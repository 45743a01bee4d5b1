/-
  Value engine — plain runs.

  A plain run makes objects with the factories of the engine and asks for operations, all
  of it on objects and never on null; its host takes no guards, plugs in no code and calls
  nothing. In a plain run nothing ever aborts: no object that is needed is null, gone or
  lent, and every place that is looked at is inside its sequence.

  * `World.Tidy`: worlds that are sound without null slots, and with nothing lent.
  * `Action.Returns`: actions that come to a result.
  * `Request.returns`: every request but a call does, in a tidy world.
  * `Plain`: the states that a plain run can come to; each is tidy (`Plain.tidy`).
  * `plain_runs_never_abort`: what this means.
-/
import ValueEngine.Proofs.Loans.Run
import ValueEngine.Proofs.Soundness.Operations

namespace ValueEngine

variable {σ α β : Type} {w w' : World σ} {i : ObjId} {o : Object}

/-- A world whose objects hold live objects only, none of them lent. -/
structure World.Tidy (w : World σ) : Prop where
  heap : w.heap.Sound False
  loans : Exact [] w.heap

/-- What the factories are given for a payload: objects for its slots, a program, a native
    function, and entries under ascending keys. -/
structure Payload.Provided (h : Heap) (p : Payload) : Prop where
  slots : ∀ r ∈ p.slots, (r.bind h.get?).isSome
  program : p ≠ .code none ∧ p ≠ .function none
  native : p ≠ .nativeFunction none
  ordered : ∀ entries, p = .dict entries → entries.Ascending

/-! ## Tidy worlds -/

theorem Exact.free_of_nil {h : Heap} (he : Exact [] h) (ho : h.get? i = some o) :
    o.loan = .free := (he.loans i o ho).unique ⟨rfl, rfl⟩

theorem Exact.unwritten_of_nil {h : Heap} (he : Exact [] h) : h.Unwritten := by
  intro i o ho hl
  rw [he.free_of_nil ho] at hl
  cases hl

/-- Where no object is lent there is no guard to answer for. -/
theorem Exact.nil_of_cells {h : Heap}
    (hcells : ∀ cell ∈ h.cells.toList, ∀ o, cell = some o → o.loan = .free) : Exact [] h where
  held := nofun
  loans i o ho := by
    rw [Heap.forall_get? (P := fun o => o.loan = .free) hcells ho]
    exact ⟨rfl, rfl⟩

theorem Heap.live_of_bind {h : Heap} {r : Ref} (hr : (r.bind h.get?).isSome) :
    ∃ i, r = some i ∧ h.Live i := by
  obtain ⟨o, ho⟩ := Option.isSome_iff_exists.1 hr
  obtain ⟨i, rfl, hi⟩ := Option.bind_eq_some_iff.1 ho
  exact ⟨i, rfl, live_of_get? hi⟩

theorem Heap.admits_of_bind {h : Heap} {nulls : Prop} {r : Ref} (hr : (r.bind h.get?).isSome) :
    h.Admits nulls r := by
  obtain ⟨i, rfl, hi⟩ := live_of_bind hr
  exact hi

namespace World.Tidy

theorem unwritten (hw : w.Tidy) : w.heap.Unwritten := hw.loans.unwritten_of_nil

theorem sound (hw : w.Tidy) {L : Licence} : w.Sound L where
  heap := hw.heap.mono_nulls False.elim
  unwritten _ := hw.unwritten

end World.Tidy

theorem Payload.Provided.fits {h : Heap} {p : Payload} (hp : p.Provided h) (nulls : Prop) :
    p.Fits nulls h ⟨h.size⟩ where
  slots r hr := Heap.admits_of_bind (hp.slots r hr)
  target cursor t hc ht := by
    subst hc
    obtain ⟨j, hj, hlive⟩ := Heap.live_of_bind (hp.slots cursor.target List.mem_cons_self)
    cases ht.symm.trans hj
    exact hlive.lt_size
  ordered := hp.ordered

theorem Payload.Provided.missingPart?_eq_none {h : Heap} {p : Payload} (hp : p.Provided h) :
    p.missingPart? = none := by
  have hslots : p.slots.any Option.isNone = false := by
    rw [List.any_eq_false]
    intro r hr
    obtain ⟨i, rfl, -⟩ := Heap.live_of_bind (hp.slots r hr)
    exact Bool.false_ne_true
  cases p with
  | list elements | tuple elements => exact if_neg (Bool.eq_false_iff.1 hslots)
  | dict entries => exact if_neg (Bool.eq_false_iff.1 hslots)
  | iterator cursor =>
    obtain ⟨i, hi, -⟩ := Heap.live_of_bind (hp.slots cursor.target List.mem_cons_self)
    exact if_neg (by simp [hi])
  | code program =>
    cases program with
    | none => exact absurd rfl hp.program.1
    | some program => rfl
  | function program =>
    cases program with
    | none => exact absurd rfl hp.program.2
    | some program => rfl
  | nativeFunction target =>
    cases target with
    | none => exact absurd rfl hp.native
    | some target => rfl
  | _ => rfl

/-! ## Coming to a result -/

/-- An action that comes to a result. -/
def Action.Returns (x : Action σ α) (w : World σ) : Prop := ∃ a w', x w = .ok a w'

namespace Action.Returns

theorem pure (a : α) (w : World σ) : (Pure.pure a : Action σ α).Returns w := ⟨a, w, rfl⟩

theorem bind {x : Action σ α} {f : α → Action σ β} (hx : x.Returns w)
    (hf : ∀ a w', (f a).Returns w') : (x >>= f).Returns w := by
  obtain ⟨a, w', h⟩ := hx
  obtain ⟨b, v, hb⟩ := hf a w'
  exact ⟨b, v, (bind_of_ok h f).trans hb⟩

theorem lend {access : Access} {loan : Loan} {body : ObjId → Object → Action σ α}
    (ho : w.heap.get? i = some o) (hl : access.acquire o.loan = .ok loan)
    (hb : (body i { o with loan := loan }).Returns
      { w with heap := w.heap.set i { o with loan := loan } }) :
    (lend access (some i) body).Returns w := by
  obtain ⟨a, w', h⟩ := hb
  refine ⟨a, w'.endLoan access i, ?_⟩
  rw [lend_of_granted ho hl, h]

end Action.Returns

theorem fail_returns (cause : Failure) (w : World σ) :
    (fail ({} : Hooks σ) cause).Returns w := by
  have hreturns : Hooks.Returns ({} : Hooks σ) := nofun
  obtain ⟨w', h⟩ := fail_eq_ok hreturns cause w
  exact ⟨_, w', h⟩

theorem replaceOrFail_returns (i : ObjId) (payload : Except Failure Payload) (w : World σ) :
    (replaceOrFail ({} : Hooks σ) i payload).Returns w := by
  cases payload with
  | ok payload => exact ⟨_, _, rfl⟩
  | error cause => exact fail_returns cause w

/-! ## Writing -/

section Writing

variable (hw : w.Tidy) (ho : w.heap.get? i = some o)
include hw ho

/-- In a tidy world an object is free to be lent for writing. -/
theorem World.Tidy.acquire_write : Access.write.acquire o.loan = .ok .exclusive := by
  rw [hw.loans.free_of_nil ho]
  rfl

theorem append_returns (value : ObjId) :
    (Ref.append ({} : Hooks σ) (some i) (some value)).Returns w :=
  .lend ho (hw.acquire_write ho) (replaceOrFail_returns i _ _)

theorem store_returns {key : ObjId} (hkey : w.heap.Live key) (value : ObjId) :
    (Ref.store ({} : Hooks σ) (some i) (some key) (some value)).Returns w := by
  obtain ⟨k, hk⟩ := Option.isSome_iff_exists.1 hkey
  obtain ⟨loan, hp⟩ := peek_of_unwritten hw.unwritten hk
  have hbody : (withWrite (some i) fun i collection =>
      replaceOrFail {} i (collection.payload.stored? k.payload (some value))).Returns w :=
    .lend ho (hw.acquire_write ho) (replaceOrFail_returns i _ _)
  obtain ⟨a, w', h⟩ := hbody
  exact ⟨a, w', (Action.bind_of_ok hp _).trans h⟩

/-- The target of an iterator is another object, so it can be read while the iterator is
    lent for writing. -/
theorem next_returns : (Ref.next ({} : Hooks σ) (some i)).Returns w := by
  refine .lend ho (hw.acquire_write ho) ?_
  have hfits := hw.heap.fits i o ho
  cases hp : o.payload with
  | iterator cursor =>
    have htarget : w.heap.Admits False cursor.target :=
      hfits.payload.slots _ (by rw [hp]; exact List.mem_cons_self)
    cases ht : cursor.target with
    | none =>
      rw [ht] at htarget
      exact htarget.elim
    | some t =>
      rw [ht] at htarget
      obtain ⟨q, hq⟩ := Option.isSome_iff_exists.1 htarget
      have hne : t ≠ i := by
        rintro rfl
        exact Nat.lt_irrefl _ (hfits.payload.target cursor t hp ht)
      have hl : Access.read.acquire q.loan = .ok (.shared 1) := by
        rw [hw.loans.free_of_nil hq]
        rfl
      simp only [ht]
      refine .lend ((Heap.get?_set_of_ne hne _).trans hq) hl ?_
      cases he : q.payload.elements? with
      | none => exact fail_returns _ _
      | some elements =>
        refine .bind ⟨_, _, rfl⟩ fun _ v => ?_
        -- what the cursor passes is a slot of the target, which is not null
        cases hnext : (cursor.next elements).2 with
        | none => exact .pure _ v
        | some r =>
          have hslots := (hw.heap.fits t q hq).payload.slots
          have hr : r ∈ q.payload.slots := by
            have hmem := Cursor.mem_of_next hnext
            unfold Payload.elements? at he
            split at he <;> cases he
            all_goals rename_i hpayload; rwa [hpayload]
          cases r with
          | none => exact (hslots none hr).elim
          | some j => exact .pure _ v
  | _ => exact fail_returns _ _

theorem bindAttribute_returns (name : Bytes) (value : ObjId) :
    (Ref.bindAttribute (some i) name (some value) : Action σ Unit).Returns w := by
  show (withWrite (some i) fun i _ => bindOwn i name (some value)).Returns w
  exact .lend ho (hw.acquire_write ho) ⟨_, _, rfl⟩

theorem unbindAttribute_returns (name : Bytes) :
    (Ref.unbindAttribute ({} : Hooks σ) (some i) name).Returns w := by
  refine .bind (.lend ho (hw.acquire_write ho) ?_) fun missing v => ?_
  · split <;> exact ⟨_, _, rfl⟩
  · cases missing with
    | none => exact ⟨_, _, rfl⟩
    | some kind => exact fail_returns _ _

end Writing

/-! ## Requests -/

theorem Environment.secure_none (L : Licence) : Environment.Secure L ({} : Environment σ) where
  hooks := Hooks.secure_none L
  natives := nofun
  evaluator := nofun

theorem Environment.within_none (foreign : ∀ {α : Type}, Action σ α → Prop) :
    Environment.Within foreign ({} : Environment σ) where
  hooks := Hooks.within_none foreign
  natives := nofun
  evaluator := nofun

/-- **In a tidy world every request on objects comes to a result**, unless it calls. -/
theorem Request.returns {request : Request} (hcall : request.CallsNothing) (hw : w.Tidy)
    (hops : ∀ r ∈ request.operands, (r.bind w.heap.get?).isSome) :
    (request.run {}).Returns w := by
  by_cases hreads : request.Reads
  · have hsecures := Request.secures (L := .strict) (Environment.secure_none _) (.inr hreads)
      fun r hr => Heap.admits_of_bind (hops r hr)
    obtain ⟨response, w', h, -⟩ := hsecures.returns id hw.sound
    exact ⟨response, w', h⟩
  have hlive : ∀ r ∈ request.operands, ∃ k p, r = some k ∧ w.heap.get? k = some p := by
    intro r hr
    obtain ⟨k, rfl, hk⟩ := Heap.live_of_bind (hops r hr)
    obtain ⟨p, hp⟩ := Option.isSome_iff_exists.1 hk
    exact ⟨k, p, rfl, hp⟩
  cases request with
  | binary verb a b =>
    cases verb <;> first | exact absurd trivial hreads | skip
    obtain ⟨i, o, rfl, hi⟩ := hlive a (by simp [operands])
    obtain ⟨j, -, rfl, -⟩ := hlive b (by simp [operands])
    exact .bind (append_returns hw hi j) fun _ => .pure _
  | unary verb a =>
    cases verb <;> first | exact absurd trivial hreads | skip
    obtain ⟨i, o, rfl, hi⟩ := hlive a (by simp [operands])
    exact .bind (next_returns hw hi) fun _ => .pure _
  | store a key value =>
    obtain ⟨i, o, rfl, hi⟩ := hlive a (by simp [operands])
    obtain ⟨k, p, rfl, hk⟩ := hlive key (by simp [operands])
    obtain ⟨j, -, rfl, -⟩ := hlive value (by simp [operands])
    exact .bind (store_returns hw hi (Heap.live_of_get? hk) j) fun _ => .pure _
  | bindAttribute a name value =>
    obtain ⟨i, o, rfl, hi⟩ := hlive a (by simp [operands])
    obtain ⟨j, -, rfl, -⟩ := hlive value (by simp [operands])
    exact .bind (bindAttribute_returns hw hi name j) fun _ => .pure _
  | unbindAttribute a name =>
    obtain ⟨i, o, rfl, hi⟩ := hlive a (by simp [operands])
    exact .bind (unbindAttribute_returns hw hi name) fun _ => .pure _
  | call f args => exact hcall.elim
  | _ => exact absurd trivial hreads

/-- A request on objects leaves a tidy world tidy, however it ends. -/
theorem World.Tidy.request (hw : w.Tidy) {request : Request}
    (hops : ∀ r ∈ request.operands, (r.bind w.heap.get?).isSome) :
    ((request.run {}).after w).Tidy where
  heap := ((Request.secures (L := .filled) (Environment.secure_none _) (.inl trivial)
    fun r hr => Heap.admits_of_bind (hops r hr)).sound_after hw.sound).1.heap
  loans := (Request.procedure (Environment.within_none (Accounted fun _ => []))
    request).accounted (fun hx => hx) [] w hw.loans

theorem World.Tidy.fresh (hw : w.Tidy) {payload : Payload} (hp : payload.Provided w.heap) :
    ((fresh payload : Action σ ObjId).after w).Tidy where
  heap := ((Secures.fresh (L := .filled) (hp.fits _) (.inl trivial)).sound_after hw.sound).1.heap
  loans :=
    have haccounted : Accounted (fun _ => []) (ValueEngine.fresh payload : Action σ ObjId) :=
      .fresh payload
    haccounted [] w hw.loans

/-! ## Plain runs -/

/-- The states that a plain run can come to. -/
inductive Plain : World σ → Prop
  | start (host : σ) : Plain (.initial host)
  /-- A factory is given what it needs. -/
  | create {w : World σ} {payload : Payload} :
      Plain w → payload.Provided w.heap → Plain ((fresh payload).after w)
  /-- An operation is given objects, of whatever kind, whether or not they are the same. -/
  | request {w : World σ} {request : Request} :
      Plain w → request.CallsNothing → (∀ r ∈ request.operands, (r.bind w.heap.get?).isSome) →
      Plain ((request.run {}).after w)
  | configure {w : World σ} (settings : Settings) : Plain w → Plain { w with settings }
  | trace {w : World σ} (level : Int) (message : Bytes) : Plain w → Plain (w.traced level message)
  /-- What nothing refers to is reclaimed; the canonical objects are always referred to. -/
  | reclaim {w : World σ} {roots : List ObjId} :
      Plain w → (∀ i ∈ canonicalIds, i ∈ roots) →
      Plain { w with heap := w.heap.collect roots }

/-- **Every state of a plain run is tidy.** -/
theorem Plain.tidy (h : Plain w) : w.Tidy := by
  induction h with
  | start host => exact ⟨Heap.Sound.initial, exact_initial⟩
  | create _ hp ih => exact ih.fresh hp
  | request _ _ hops ih => exact ih.request hops
  | configure settings _ ih => exact ⟨ih.heap, ih.loans⟩
  | trace level message _ ih => exact ⟨by simpa using ih.heap, by simpa using ih.loans⟩
  | reclaim _ hroots ih => exact ⟨ih.heap.collect hroots, ih.loans.collect nofun⟩

/-- **Plain runs never abort.** In every state of a plain run all slots, attribute values
    and targets are live objects, no iterator is over itself and no object is lent. A
    factory that is given what it needs gives an object, and an operation on objects
    comes to a result. Every place that an index or a slice means is inside the sequence
    that it is asked of. -/
theorem plain_runs_never_abort :
    (∀ w : World σ, Plain w →
      (∀ i o, w.heap.get? i = some o →
        (∀ r ∈ o.payload.slots, (r.bind w.heap.get?).isSome) ∧
        (∀ j ∈ o.attributes.values, (w.heap.get? j).isSome) ∧
        (∀ cursor, o.payload = .iterator cursor → cursor.target ≠ some i) ∧
        o.loan = .free) ∧
      (∀ payload : Payload, payload.Provided w.heap → (fresh payload).Returns w) ∧
      ∀ request : Request, request.CallsNothing →
        (∀ r ∈ request.operands, (r.bind w.heap.get?).isSome) → (request.run {}).Returns w) ∧
    (∀ (index : Int32) (length place : Nat), position? index length = some place →
      place < length) ∧
    ∀ (bounds : SliceBounds) (length : Nat) (places : List Nat),
      bounds.positions? length = some places → ∀ place ∈ places, place < length := by
  refine ⟨fun w h => ?_, fun _ _ _ => position?_lt, fun _ _ _ => SliceBounds.lt_of_positions?⟩
  have hw := h.tidy
  refine ⟨fun i o ho => ⟨?_, ?_, ?_, hw.loans.free_of_nil ho⟩, fun payload hp => ?_,
    fun request hcall hops => Request.returns hcall hw hops⟩
  · intro r hr
    have hadmits := (hw.heap.fits i o ho).payload.slots r hr
    cases r with
    | none => exact hadmits.elim
    | some j => exact hadmits
  · exact (hw.heap.fits i o ho).attributes
  · exact fun cursor hp => hw.heap.founded i cursor (by rw [Heap.contents_of_get? ho, hp])
  · have hsecures := Secures.fresh (L := .strict) (hp.fits _) (.inr hp.missingPart?_eq_none)
    obtain ⟨i, w', hrun, -⟩ := hsecures.returns id hw.sound
    exact ⟨i, w', hrun⟩

/-- The list that the host of a new engine makes. -/
def tangledList : ObjId := ⟨Heap.initial.size⟩

/-- The iterator that it makes next. -/
def tangledIterator : ObjId := ⟨Heap.initial.size + 1⟩

/-- Appends to the list. -/
def tangle (value : ObjId) : Request := .binary .append (some tangledList) (some value)

/-- A list that holds itself and an iterator over it. -/
def tangled : World Unit :=
  ((tangle tangledIterator).run {}).after
    (((Request.unary .iterate (some tangledList)).run {}).after
      (((tangle tangledList).run {}).after ((fresh (.list [])).after (.initial ()))))

theorem plain_tangled : Plain tangled := by
  have hlist : Plain ((fresh (.list [])).after (World.initial ())) :=
    .create (.start ()) ⟨nofun, ⟨nofun, nofun⟩, nofun, nofun⟩
  have hself : Plain (((tangle tangledList).run {}).after _) := .request hlist trivial (by decide)
  have hiterator : Plain (((Request.unary .iterate (some tangledList)).run {}).after _) :=
    .request hself trivial (by decide)
  have hboth : Plain (((tangle tangledIterator).run {}).after _) :=
    .request hiterator trivial (by decide)
  exact hboth

/-- The iterator gives an element of the list that holds it, the list can be stored in
    itself under itself, which is a failure, and it has a text. -/
theorem plain_runs_never_abort_tangled :
    ((Request.unary .next (some tangledIterator)).run {}).Returns tangled ∧
    ((Request.store (some tangledList) (some tangledList) (some tangledList)).run {}).Returns
      tangled ∧
    ((Request.text (some tangledList)).run {}).Returns tangled := by
  obtain ⟨hplain, -⟩ := plain_runs_never_abort (σ := Unit)
  obtain ⟨-, -, hreturns⟩ := hplain tangled plain_tangled
  exact ⟨hreturns _ trivial (by decide), hreturns _ trivial (by decide),
    hreturns _ trivial (by decide)⟩

end ValueEngine

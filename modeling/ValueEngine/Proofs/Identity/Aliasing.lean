/-
  Value engine — results that share slots with operands.

  A sum of lists and a slice of a list or a tuple are new sequences of the objects that
  their operands hold. So what is done to the result is not seen in the operands, what is
  done to the operands is not seen in the result, and what is done to an object that both
  hold is seen through both.

  * `Heap.slot`, `Heap.seen`: what an object holds at a place, and what is seen there.
  * `Request.Copies`: where the slots of a result are copied from.
  * `Spares`: worlds between which the contents of all objects but some are unchanged.
  * `Request.leads_spares`: what is not a receiver is spared; `Confined`: any number of
    requests with receivers among some objects.
  * `operations_give_made_or_stored`: what operations give, and what it shares.
-/
import ValueEngine.Proofs.Identity.Results

namespace ValueEngine

variable {σ α β : Type} {w v : World σ} {env : Environment σ} {request : Request}

/-! ## Slots -/

/-- What an object holds at a place. -/
def Heap.slot (h : Heap) (i : ObjId) (k : Nat) : Option Ref := (h.contents i).bind (·.slots[k]?)

theorem Heap.slot_of_contents {h h' : Heap} {i j : ObjId} (hc : h.contents i = h'.contents j)
    (k : Nat) : h.slot i k = h'.slot j k := by rw [slot, hc, slot]

/-- The object that is seen in a slot, as it is now. -/
def Heap.seen (h : Heap) (i : ObjId) (k : Nat) : Option Object := (h.slot i k).join.bind h.get?

theorem Heap.seen_of_slot {h : Heap} {i : ObjId} {k : Nat} {e : ObjId}
    (hs : h.slot i k = some (some e)) : h.seen i k = h.get? e := by
  rw [seen, hs, Option.join_some, Option.bind_some]

/-- The slots that the result of a request is copied from, in order, each with the object
    that it is in: those of both operands for a sum of lists, and the places that it
    selects for a slice of a list or a tuple. -/
inductive Request.Copies (w : World σ) : Request → List (ObjId × Nat) → Prop
  | sum {i j : ObjId} {ls rs : List Ref} :
      w.heap.contents i = some (.list ls) → w.heap.contents j = some (.list rs) →
      Copies w (.binary .add (some i) (some j))
        ((List.range ls.length).map (i, ·) ++ (List.range rs.length).map (j, ·))
  | slice {i j : ObjId} {p : Payload} {elements : List Ref} {bounds : SliceBounds} :
      w.heap.contents i = some p → p.elements? = some elements →
      w.heap.contents j = some (.slice bounds) → bounds.step ≠ some 0 →
      Copies w (.binary .item (some i) (some j))
        ((bounds.progression elements.length).places.map (i, ·))

/-- What the table makes of two lists. -/
theorem Request.Makes.of_sum {i j : ObjId} {ls rs : List Ref} {p : Payload}
    (hm : Request.Makes w (.binary .add (some i) (some j)) p)
    (hi : w.heap.contents i = some (.list ls)) (hj : w.heap.contents j = some (.list rs)) :
    p = .list (ls ++ rs) := by
  generalize hrequest : Request.binary .add (some i) (some j) = request at hm
  cases hm with
  | @arithmetic op i' j' q q' p hq hq' hp =>
    injection hrequest with hverb hi' hj'
    cases hi'
    cases hj'
    cases op <;> cases hverb
    cases hi.symm.trans hq
    cases hj.symm.trans hq'
    cases hp
    rfl
  | test answer hverb =>
    injection hrequest with hadd
    subst hadd
    exact absurd hverb (by decide)
  | _ => cases hrequest

/-- What a slice of a sequence makes. -/
theorem Request.Makes.of_slice {i j : ObjId} {p q : Payload} {elements : List Ref}
    {bounds : SliceBounds} (hm : Request.Makes w (.binary .item (some i) (some j)) q)
    (hi : w.heap.contents i = some p) (hp : p.elements? = some elements)
    (hj : w.heap.contents j = some (.slice bounds)) :
    q.slots = (bounds.progression elements.length).places.filterMap (elements[·]?) := by
  generalize hrequest : Request.binary .item (some i) (some j) = request at hm
  cases hm with
  | @arithmetic op =>
    injection hrequest with hverb
    cases op <;> cases hverb
  | test answer hverb =>
    injection hrequest with hitem
    subst hitem
    exact absurd hverb (by decide)
  | @slice i' j' p' units bounds' hp' hbounds hunits =>
    cases hrequest
    cases hi.symm.trans hp'
    cases hj.symm.trans hbounds
    cases p with
    | list xs | tuple xs =>
      cases hp
      cases hunits
      simp [Payload.restricted, Payload.slots]
    | _ => cases hp
  | byte _ hindex =>
    cases hrequest
    cases hj.symm.trans hindex
  | _ => cases hrequest

theorem map_some_filterMap {f : α → Option β} {xs : List α} (h : ∀ x ∈ xs, (f x).isSome) :
    (xs.filterMap f).map some = xs.map f := by
  induction xs with
  | nil => rfl
  | cons x xs ih =>
    obtain ⟨hx, hxs⟩ := List.forall_mem_cons.1 h
    obtain ⟨y, hy⟩ := Option.isSome_iff_exists.1 hx
    rw [List.filterMap_cons, hy, List.map_cons, List.map_cons, hy, ih hxs]

/-- **The slots of a result are those that it is copied from**, one by one. -/
theorem Request.Copies.slots {sources : List (ObjId × Nat)} {p : Payload}
    (hc : request.Copies w sources) (hm : request.Makes w p) :
    p.slots.map some = sources.map fun source => w.heap.slot source.1 source.2 := by
  cases hc with
  | @sum i j ls rs hi hj =>
    have hslot : ∀ {i : ObjId} {xs : List Ref}, w.heap.contents i = some (.list xs) →
        (List.range xs.length).map (fun k => w.heap.slot i k) = xs.map some := by
      intro i xs h
      rw [← map_some_range]
      exact List.map_congr_left fun k _ => by rw [Heap.slot, h]; rfl
    rw [hm.of_sum hi hj, List.map_append, List.map_map, List.map_map]
    exact (List.map_append ..).trans (congrArg₂ (· ++ ·) (hslot hi).symm (hslot hj).symm)
  | @slice i j p elements bounds hi hp hj hs =>
    have hslots : p.slots = elements := by cases p <;> cases hp <;> rfl
    have hin : ∀ place ∈ (bounds.progression elements.length).places,
        (elements[place]?).isSome := by
      intro place hplace
      have hlt := SliceBounds.lt_of_mem_places (SliceBounds.stride_ne_zero hs) hplace
      rw [List.getElem?_eq_getElem hlt]
      rfl
    rw [hm.of_slice hi hp hj, map_some_filterMap hin, List.map_map]
    refine List.map_congr_left fun place _ => ?_
    rw [Function.comp_apply, Heap.slot, hi, Option.bind_some, hslots]

/-! ## What is spared -/

/-- Worlds between which every object, some apart, keeps what it holds. -/
def Spares (may : ObjId → Prop) (w w' : World σ) : Prop :=
  ∀ i p, ¬may i → w.heap.contents i = some p → w'.heap.contents i = some p

variable {may : ObjId → Prop}

theorem Spares.update {i : ObjId} {f : Object → Object}
    (hi : may i ∨ ∀ o, (f o).payload = o.payload) :
    Spares may w { w with heap := w.heap.update i f } := by
  intro j p hj hp
  by_cases hji : j = i
  · subst hji
    have hf := hi.resolve_left hj
    rwa [Heap.contents_update_of_payload _ _ hf]
  · rwa [Heap.contents_update_of_ne hji]

theorem spares_steps (may : ObjId → Prop) : StepRelation False (Spares (σ := σ) may) where
  refl _ _ _ _ h := h
  trans huv hvw i p hi h := hvw i p hi (huv i p hi h)
  loan _ _ _ := .update (.inr fun _ => rfl)
  trace w _ _ i p _ h := by rwa [World.heap_traced]
  allocate _ o _ _ _ _ h := Heap.contents_allocate_of_some h o
  change h := h.elim

section Writers

variable {hooks : Hooks σ} (hh : hooks.Within (Action.Leads (Spares may))) {a : Ref}
  (ha : ∀ i, a = some i → may i)

theorem change_spares {i : ObjId} (hi : may i) (f : Object → Object) :
    (Action.updateObject i f : Action σ Unit).Leads (Spares may) :=
  fun _ => .update (.inl hi)

include hh in
theorem fail_spares (cause : Failure) : (fail hooks cause).Leads (Spares may) := by
  have hfail : Procedure (Action.Leads (Spares may)) False (fail hooks cause) :=
    (fail_values hh cause).procedure
  exact hfail.leads (spares_steps may) fun hx => hx

include ha in
/-- Only the object that is lent for writing is changed. -/
theorem withWrite_spares {body : ObjId → Object → Action σ α}
    (hb : ∀ i o, may i → (body i o).Leads (Spares may)) :
    (withWrite a body).Leads (Spares may) := by
  intro w
  have hR := spares_steps (σ := σ) may
  unfold withWrite
  cases ht : takeLoan .write a w with
  | error e v =>
    rw [after_lend_of_refused ht, takeLoan_error ht]
    exact hR.refl w
  | ok lent v =>
    obtain ⟨i, o⟩ := lent
    rw [after_lend ht]
    have hi := ha i (ref_of_takeLoan ht)
    exact hR.trans (Action.Leads.takeLoan hR ht) (hR.trans (hb i o hi v) (hR.loan _ i _))

include hh in
theorem replaceOrFail_spares {i : ObjId} (hi : may i) (result : Except Failure Payload) :
    (replaceOrFail hooks i result).Leads (Spares may) := by
  cases result with
  | ok q => exact .bind (spares_steps may) (change_spares hi _) fun _ => (spares_steps may).refl
  | error cause => exact fail_spares hh cause

include hh ha

theorem append_spares (value : Ref) : (Ref.append hooks a value).Leads (Spares may) := by
  cases value with
  | none => exact (spares_steps may).refl
  | some v => exact withWrite_spares ha fun i o hi => replaceOrFail_spares hh hi _

theorem store_spares (key value : Ref) : (Ref.store hooks a key value).Leads (Spares may) := by
  cases value with
  | none => exact (spares_steps may).refl
  | some v =>
    exact .bind (spares_steps may) (.peek (spares_steps may) key) fun key =>
      withWrite_spares ha fun i o hi => replaceOrFail_spares hh hi _

theorem unbindAttribute_spares (name : Bytes) :
    (Ref.unbindAttribute hooks a name).Leads (Spares may) := by
  have hR := spares_steps (σ := σ) may
  refine .bind hR (withWrite_spares ha fun i o hi => ?_) fun missing => ?_
  · split
    · exact .bind hR (change_spares hi _) fun _ => hR.refl
    · exact hR.refl
  · cases missing with
    | none => exact hR.refl
    | some kind => exact fail_spares hh _

theorem next_spares : (Ref.next hooks a).Leads (Spares may) := by
  have hR := spares_steps (σ := σ) may
  refine withWrite_spares ha fun i o hi => ?_
  split
  · refine .lend hR fun t p => ?_
    split
    · refine .bind hR (change_spares hi _) fun _ => ?_
      have hstep : ∀ element, Procedure (Action.Leads (Spares may)) False
          (stepOutcome element : Action σ Outcome) :=
        fun element => (stepOutcome_values element).procedure
      exact (hstep _).leads hR fun hx => hx
    · exact fail_spares hh _
  · exact fail_spares hh _

omit hh in
theorem bindAttribute_spares (name : Bytes) (value : Ref) :
    (Ref.bindAttribute a name value : Action σ Unit).Leads (Spares may) := by
  refine withWrite_spares ha fun i o hi => ?_
  cases value with
  | none => exact (spares_steps may).refl
  | some v => exact change_spares hi _

end Writers

/-- **A request spares all but its receiver**, if the code of the host does. -/
theorem Request.leads_spares (hh : env.hooks.Within (Action.Leads (Spares may)))
    (hcall : request.CallsNothing) (hmay : ∀ i, request.receiver? = some (some i) → may i) :
    (request.run env).Leads (Spares may) := by
  have hR := spares_steps (σ := σ) may
  rcases Request.reads_or_writes hcall with hreads | ⟨a, ha⟩
  · exact (Request.procedure_of_reads hh hreads).leads hR fun hx => hx
  · have hreceiver : ∀ i, a = some i → may i := fun i hi => hmay i (hi ▸ ha)
    cases request with
    | binary verb a b =>
      cases verb <;> cases ha
      exact .bind hR (append_spares hh hreceiver b) fun _ => hR.refl
    | unary verb a =>
      cases verb <;> cases ha
      exact .bind hR (next_spares hh hreceiver) fun _ => hR.refl
    | store a key value =>
      cases ha
      exact .bind hR (store_spares hh hreceiver key value) fun _ => hR.refl
    | bindAttribute a name value =>
      cases ha
      exact .bind hR (bindAttribute_spares hreceiver name value) fun _ => hR.refl
    | unbindAttribute a name =>
      cases ha
      exact .bind hR (unbindAttribute_spares hh hreceiver name) fun _ => hR.refl
    | _ => cases ha

/-- What requests that call nothing come to in any number, one after the other, if all that
    they change are some objects. Meanwhile the host may do what leaves the others what
    they hold. -/
inductive Confined (may : ObjId → Prop) (w : World σ) : World σ → Prop
  | start : Confined may w w
  | request {v : World σ} {env : Environment σ} {request : Request} :
      Confined may w v → env.hooks.Within (Action.Leads (Spares may)) → request.CallsNothing →
      (∀ i, request.receiver? = some (some i) → may i) →
      Confined may w ((request.run env).after v)
  | host {v v' : World σ} : Confined may w v → Spares may v v' → Confined may w v'

/-- **All other objects hold what they held**, over any number of requests. -/
theorem Confined.spares (h : Confined may w v) : Spares may w v := by
  induction h with
  | start => exact (spares_steps may).refl w
  | request _ hh hcall hmay ih =>
    exact (spares_steps may).trans ih (Request.leads_spares hh hcall hmay _)
  | host _ hs ih => exact (spares_steps may).trans ih hs

theorem Spares.slot (h : Spares may w v) {i : ObjId} (hi : ¬may i) {k : Nat} {r : Ref}
    (hr : w.heap.slot i k = some r) : v.heap.slot i k = some r := by
  obtain ⟨p, hp, hk⟩ := Option.bind_eq_some_iff.1 hr
  rw [Heap.slot, h i p hi hp]
  exact hk

/-! ## The main result -/

/-- What copies slots makes the object that holds the copies. -/
theorem Request.Gives.copied {sources : List (ObjId × Nat)} {r : ObjId} {w' : World σ}
    (hg : request.Gives w r w') (hc : request.Copies w sources) :
    ∃ p, Bears p w r w' ∧
      p.slots.map some = sources.map fun source => w.heap.slot source.1 source.2 := by
  cases hg with
  | made hm hb => exact ⟨_, hb, hc.slots hm⟩
  | found hf =>
    cases hc with
    | sum => cases hf
    | slice _ _ hj =>
      cases hf with
      | element _ hindex => cases hj.symm.trans hindex
      | entry _ hname => cases hj.symm.trans hname
  | nothing hn => cases hc <;> exact hn.elim

/-- **What operations give, and what it shares.** Let a request that calls nothing succeed
    without the host serving an operator. It gives an object that was never there before,
    of the canonical type of its kind and without attributes, or the very object that it
    found, or None. The slots of a sum of lists and of a slice of a list or a tuple are
    those of the operands, object for object. From then on, whatever requests do to the
    result, all that was there before holds what it held; whatever they do to anything
    else, the result holds what it held. And what is seen in a slot of the result, and in
    the slot that it was copied from, is one object, whatever has been done to that. -/
theorem operations_give_made_or_stored {r : ObjId} {w' : World σ}
    (hoffer : request.Offered w → env.hooks.onUnsupported = none) (hcall : request.CallsNothing)
    (hrun : request.run env w = .ok (.outcome (.success r)) w') :
    request.Gives w r w' ∧
    ∀ sources, request.Copies w sources →
      (∃ p, Bears p w r w' ∧
        p.slots.map some = sources.map fun source => w.heap.slot source.1 source.2) ∧
      (∀ v, Confined (· = r) w' v →
        ∀ i p, w.heap.contents i = some p → v.heap.contents i = some p) ∧
      (∀ v, Confined (· ≠ r) w' v → v.heap.contents r = w'.heap.contents r) ∧
      ∀ (k : Nat) (holder : ObjId) (place : Nat) (shared : ObjId),
        sources[k]? = some (holder, place) → w.heap.slot holder place = some (some shared) →
        ∀ (may : ObjId → Prop) (v : World σ), Confined may w' v →
          (¬may r → v.heap.seen r k = v.heap.get? shared) ∧
          (¬may holder → v.heap.seen holder place = v.heap.get? shared) := by
  have hgives : request.Gives w r w' := (Request.gives hoffer hcall).of_run hrun r rfl
  refine ⟨hgives, fun sources hc => ?_⟩
  obtain ⟨p, hbears, hslots⟩ := hgives.copied hc
  have hold : ∀ {i : ObjId} {q : Payload}, w.heap.contents i = some q → i ≠ r := by
    rintro i q hq rfl
    rw [Heap.contents, hbears.get?_eq_none] at hq
    cases hq
  refine ⟨⟨p, hbears, hslots⟩, fun v hv i q hq => ?_, fun v hv => ?_,
    fun k holder place shared hk hshared may v hv => ⟨fun hr => ?_, fun hholder => ?_⟩⟩
  · refine hv.spares i q (hold hq) ?_
    rwa [hbears.contents_of_ne (hold hq)]
  · rw [hbears.contents_self]
    exact hv.spares r p (not_not_intro rfl) hbears.contents_self
  · -- the slot of the result is the one that it was copied from
    have hcopy : w'.heap.slot r k = some (some shared) := by
      have hentry := congrArg (·[k]?) hslots
      simp only [List.getElem?_map, hk, Option.map_some, hshared] at hentry
      obtain ⟨s, hs, hsome⟩ := Option.map_eq_some_iff.1 hentry
      cases hsome
      rw [Heap.slot, hbears.contents_self]
      exact hs
    exact Heap.seen_of_slot (hv.spares.slot hr hcopy)
  · obtain ⟨q, hq, -⟩ := Option.bind_eq_some_iff.1 hshared
    rw [Heap.slot_of_contents (hbears.contents_of_ne (hold hq)).symm] at hshared
    exact Heap.seen_of_slot (hv.spares.slot hholder hshared)

/-! ## A list twice over -/

/-- A value that a run comes to, with the world that it leaves behind. -/
theorem Action.eq_ok_of_run' {x : Action σ α} {a : α} (h : x.run' w = some a) :
    x w = .ok a (x.after w) := by
  cases hr : x w with
  | ok b v =>
    rw [run'_of_ok hr] at h
    cases h
    rw [after_of_ok hr]
  | error e v =>
    have hnone : x.run' w = none := congrArg (fun result => EStateM.run' (fun _ => result) w) hr
    rw [hnone] at h
    cases h

/-- The identity of an empty list that a host makes first. -/
def innerId : ObjId := ⟨Heap.initial.size⟩

/-- The identity of a list of that list, which it makes next. -/
def outerId : ObjId := ⟨Heap.initial.size + 1⟩

/-- An engine with the two lists. -/
def withLists : World Unit :=
  ((World.initial ()).added (Payload.list []).newborn).added
    (Payload.list [some innerId]).newborn

/-- A list added to itself holds its element twice. To append to the sum does not show in
    the list; to append to the element shows in all three slots. -/
theorem operations_give_made_or_stored_twice :
    let sum : ObjId := ⟨Heap.initial.size + 2⟩
    let added := ((Request.binary .add (some outerId) (some outerId)).run {}).after withLists
    let grown := ((Request.binary .append (some sum) (some noneId)).run {}).after added
    let filled := ((Request.binary .append (some innerId) (some noneId)).run {}).after added
    grown.heap.contents outerId = some (.list [some innerId]) ∧
      grown.heap.contents sum = some (.list [some innerId, some innerId, some noneId]) ∧
      filled.heap.contents innerId = some (.list [some noneId]) ∧
      filled.heap.seen sum 0 = filled.heap.get? innerId ∧
      filled.heap.seen sum 1 = filled.heap.get? innerId ∧
      filled.heap.seen outerId 0 = filled.heap.get? innerId := by
  intro sum added grown filled
  have houter : withLists.heap.contents outerId = some (.list [some innerId]) := by decide
  let request := Request.binary .add (some outerId) (some outerId)
  have hrun : request.run {} withLists = .ok (.outcome (.success sum)) added := by
    have hsum : (request.run {}).run' withLists = some (.outcome (.success sum)) := by
      decide +kernel
    exact Action.eq_ok_of_run' hsum
  have hcall : request.CallsNothing := trivial
  obtain ⟨-, hshares⟩ := operations_give_made_or_stored (fun _ => rfl) hcall hrun
  obtain ⟨-, hold, -, hseen⟩ := hshares _ (.sum houter houter)
  have hgrown : Confined (· = sum) added grown :=
    .request .start (Hooks.within_none _) trivial fun i hi => by cases hi; rfl
  have hfilled : Confined (· = innerId) added filled :=
    .request .start (Hooks.within_none _) trivial fun i hi => by cases hi; rfl
  obtain ⟨hfirst, hlist⟩ := hseen 0 outerId 0 innerId rfl (by decide) _ _ hfilled
  obtain ⟨hsecond, -⟩ := hseen 1 outerId 0 innerId rfl (by decide) _ _ hfilled
  exact ⟨hold grown hgrown outerId _ houter, by decide +kernel, by decide +kernel,
    hfirst (by decide), hsecond (by decide), hlist (by decide)⟩

end ValueEngine

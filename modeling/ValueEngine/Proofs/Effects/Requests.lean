/-
  Value engine — what operations leave alone.

  An operation that only reads leaves every object as it was; one that writes changes its
  receiver, in the one place it is for, or nothing at all. Over any number of operations
  every object keeps its kind and its type, every iterator its target, and what is no
  list, dictionary or iterator all that it holds.

  * `Request.Changes`: what each operation that writes does to its receiver.
  * `Table.Rebinds`: tables that differ in one binding.
  * `Request.atomic`, `Request.still_or_amends`: every operation that writes.
  * `Object.Lasts`, `Passed.lasting`: what lasts over operations.
  * `operations_retain_or_amend`: in every state of a run.
-/
import ValueEngine.Proofs.Effects.Atomic
import ValueEngine.Proofs.Effects.Retention
import ValueEngine.Proofs.Loans.Footprint
import ValueEngine.Proofs.Soundness.Grounded

namespace ValueEngine

variable {σ α β : Type} {w v : World σ} {env : Environment σ}

/-! ## What writers change -/

/-- What a request that writes does to its receiver: one more last element, another
    element in one place, an entry stored under one key, an attribute bound, an attribute
    that there was unbound, or an iterator elsewhere. -/
inductive Request.Changes (w : World σ) : Request → Object → Object → Prop
  | append {r : Ref} {value : ObjId} {o : Object} {elements : List Ref} :
      o.payload = .list elements →
      Changes w (.binary .append r (some value)) o
        { o with payload := .list (elements ++ [some value]) }
  | element {r : Ref} {key value : ObjId} {o : Object} {elements : List Ref} {index : Int32}
      {place : Nat} :
      o.payload = .list elements → w.heap.contents key = some (.integer index) →
      position? index elements.length = some place →
      Changes w (.store r (some key) (some value)) o
        { o with payload := .list (elements.set place (some value)) }
  | entry {r : Ref} {key value : ObjId} {o : Object} {entries : Table Ref} {name : Bytes} :
      o.payload = .dict entries → w.heap.contents key = some (.string name) →
      Changes w (.store r (some key) (some value)) o
        { o with payload := .dict (entries.insert name (some value)) }
  | bind {r : Ref} {value : ObjId} {o : Object} {name : Bytes} :
      Changes w (.bindAttribute r name (some value)) o
        { o with attributes := o.attributes.insert name value }
  | unbind {r : Ref} {o : Object} {name : Bytes} :
      name ∈ o.attributes.keys →
      Changes w (.unbindAttribute r name) o { o with attributes := o.attributes.erase name }
  | next {r : Ref} {o : Object} {cursor : Cursor} {position : Nat} {exhausted : Bool} :
      o.payload = .iterator cursor →
      Changes w (.unary .next r) o { o with payload := .iterator { cursor with
        position := position, exhausted := exhausted } }

theorem changes_of_appended {r : Ref} {value : ObjId} {o : Object} {q : Payload}
    (h : o.payload.appended? (some value) = .ok q) :
    Request.Changes w (.binary .append r (some value)) o { o with payload := q } := by
  cases hp : o.payload with
  | list elements =>
    rw [hp] at h
    cases h
    exact .append hp
  | _ =>
    rw [hp] at h
    cases h

theorem changes_of_stored {r : Ref} {key value : ObjId} {o : Object} {p q : Payload}
    (hkey : w.heap.contents key = some p) (h : o.payload.stored? p (some value) = .ok q) :
    Request.Changes w (.store r (some key) (some value)) o { o with payload := q } := by
  unfold Payload.stored? at h
  split at h
  · rename_i elements index hp
    split at h <;> cases h
    rename_i place hplace
    exact .element hp hkey hplace
  · cases h
  · rename_i entries name hp
    cases h
    exact .entry hp hkey
  · cases h
  · cases h

/-- What calls nothing either only reads or has a receiver. -/
theorem Request.reads_or_writes {request : Request} (hcall : request.CallsNothing) :
    request.Reads ∨ ∃ r, request.receiver? = some r := by
  cases request with
  | binary verb a b =>
    cases verb with
    | append => exact .inr ⟨a, rfl⟩
    | _ => exact .inl trivial
  | unary verb a =>
    cases verb with
    | next => exact .inr ⟨a, rfl⟩
    | _ => exact .inl trivial
  | store a | bindAttribute a | unbindAttribute a => exact .inr ⟨a, rfl⟩
  | call => exact hcall.elim
  | _ => exact .inl trivial

/-- Whether a response is that of an operation that succeeded. -/
def Response.Succeeded : Response → Prop
  | .outcome o => o.Succeeded
  | _ => True

section Requests

variable (henv : env.hooks.Within (Action.Leads Still))
include henv

/-- **What writes is atomic**, a step of an iterator apart. -/
theorem Request.atomic {request : Request} {r : Ref} (hr : request.receiver? = some r)
    (hnext : ∀ a, request ≠ .unary .next a) :
    Atomic Response.Succeeded r (request.Changes w) (request.run env) w := by
  cases request with
  | binary verb a b =>
    cases verb <;> cases hr
    refine (append_atomic henv r b fun i o v q _ _ hv hq => ?_).map _ fun _ => Iff.rfl
    subst hv
    exact changes_of_appended hq
  | unary verb a =>
    cases verb <;> cases hr
    exact absurd rfl (hnext r)
  | store a key value =>
    cases hr
    refine (store_atomic henv r key value fun i o k p v q _ _ hk hp hv hq => ?_).map _
      fun _ => Iff.rfl
    subst hk hv
    exact changes_of_stored hp hq
  | bindAttribute a name value =>
    cases hr
    refine (bindAttribute_atomic r name value fun i o v _ _ hv => ?_).map (fun _ => Response.done)
      fun _ => Iff.rfl
    subst hv
    exact .bind
  | unbindAttribute a name =>
    cases hr
    exact (unbindAttribute_atomic henv r name fun i o _ _ hname => .unbind hname).map _
      fun _ => Iff.rfl
  | _ => cases hr

/-- A step of an iterator moves it or changes nothing, however it ends. -/
theorem Request.next_still_or_amends (r : Ref) :
    Still w (((Request.unary .next r).run env).after w) ∨
      Amended r ((Request.unary .next r).Changes w) w
        (((Request.unary .next r).run env).after w) := by
  have hafter : ((Request.unary .next r).run env).after w = (Ref.next env.hooks r).after w :=
    Action.after_map (Ref.next env.hooks r) Response.outcome w
  rw [hafter]
  exact next_amends henv r fun i o cursor position exhausted _ _ hp => .next hp

/-- However it ends, what writes has changed nothing or its receiver. -/
theorem Request.still_or_amends {request : Request} {r : Ref}
    (hr : request.receiver? = some r) :
    Still w ((request.run env).after w) ∨
      Amended r (request.Changes w) w ((request.run env).after w) := by
  by_cases hnext : request = .unary .next r
  · subst hnext
    exact Request.next_still_or_amends henv r
  · refine (Request.atomic henv hr ?_).after
    rintro a rfl
    cases hr
    exact hnext rfl

end Requests

/-- Tables of which the second has one name bound to something else, or to nothing, and
    is like the first otherwise. -/
structure Table.Rebinds (name : Bytes) (value : Option α) (t t' : Table α) : Prop where
  self : t'.find? name = value
  others : ∀ other, other ≠ name → t'.find? other = t.find? other
  ordered : t'.Ascending

theorem Table.Ascending.rebinds_insert {t : Table α} (ht : t.Ascending) (name : Bytes)
    (value : α) : t.Rebinds name (some value) (t.insert name value) where
  self := find?_insert_self name value t
  others _ hne := find?_insert_of_ne hne value t
  ordered := ht.insert name value

theorem Table.Ascending.rebinds_erase {t : Table α} (ht : t.Ascending) (name : Bytes) :
    t.Rebinds name none (t.erase name) where
  self := ht.find?_erase_self name
  others _ hne := find?_erase_of_ne hne t
  ordered := ht.erase name

/-! ## What lasts -/

/-- What no operation changes of an object: its kind and its type; of an iterator also its
    target, and of what is no list, dictionary or iterator all that it holds. -/
structure Object.Lasts (o o' : Object) : Prop where
  kind : o'.kind = o.kind
  type : o'.type = o.type
  target : ∀ cursor, o.payload = .iterator cursor →
    ∃ moved, o'.payload = .iterator moved ∧ moved.target = cursor.target
  payload : o.kind ≠ .list → o.kind ≠ .dict → o.kind ≠ .iterator → o'.payload = o.payload

/-- Worlds between which every object lasts. -/
def Lasting (w w' : World σ) : Prop :=
  ∀ i o, w.heap.get? i = some o → ∃ o', w'.heap.get? i = some o' ∧ o.Lasts o'

theorem Object.Lasts.of_payload {o o' : Object} (hp : o'.payload = o.payload)
    (ht : o'.type = o.type) : o.Lasts o' where
  kind := by rw [Object.kind, hp, Object.kind]
  type := ht
  target cursor h := ⟨cursor, hp.trans h, rfl⟩
  payload _ _ _ := hp

theorem Object.Lasts.refl (o : Object) : o.Lasts o := .of_payload rfl rfl

theorem Object.Lasts.trans {o o' o'' : Object} (h : o.Lasts o') (h' : o'.Lasts o'') :
    o.Lasts o'' where
  kind := h'.kind.trans h.kind
  type := h'.type.trans h.type
  target cursor hcursor := by
    obtain ⟨moved, hmoved, ht⟩ := h.target cursor hcursor
    obtain ⟨moved', hmoved', ht'⟩ := h'.target moved hmoved
    exact ⟨moved', hmoved', ht'.trans ht⟩
  payload hl hd hi := by
    have hsame := h.payload hl hd hi
    rw [← hsame]
    exact h'.payload (h.kind ▸ hl) (h.kind ▸ hd) (h.kind ▸ hi)

/-- Another list for a list, another dictionary for a dictionary. -/
theorem Object.Lasts.setPayload {o : Object} {q : Payload} (hk : q.kind = o.kind)
    (h : o.kind = .list ∨ o.kind = .dict) : o.Lasts { o with payload := q } where
  kind := hk
  type := rfl
  target cursor hcursor := by
    rw [Object.kind, hcursor] at h
    simp [Payload.kind] at h
  payload hl hd _ := by
    rcases h with h | h
    · exact absurd h hl
    · exact absurd h hd

theorem Request.Changes.lasts {request : Request} {o o' : Object}
    (h : request.Changes w o o') : o.Lasts o' := by
  cases h with
  | append hp | element hp | entry hp =>
    exact .setPayload (by simp [Object.kind, Payload.kind, hp])
      (by simp [Object.kind, Payload.kind, hp])
  | bind => exact .of_payload rfl rfl
  | unbind => exact .of_payload rfl rfl
  | next hp =>
    refine ⟨by rw [Object.kind, Object.kind, hp]; rfl, rfl, fun c hc => ?_, fun _ _ hi => ?_⟩
    · cases hp.symm.trans hc
      exact ⟨_, rfl, rfl⟩
    · rw [Object.kind, hp] at hi
      exact absurd rfl hi

namespace Lasting

theorem of_retains (h : Retains w v) : Lasting w v := fun i o ho => ⟨o, h i o ho, .refl o⟩

theorem trans {u : World σ} (huv : Lasting u v) (hvw : Lasting v w) : Lasting u w := by
  intro i o ho
  obtain ⟨o', ho', h⟩ := huv i o ho
  obtain ⟨o'', ho'', h'⟩ := hvw i o' ho'
  exact ⟨o'', ho'', h.trans h'⟩

theorem of_amended {r : Ref} {change : Object → Object → Prop} (h : Amended r change w v)
    (hchange : ∀ o o', change o o' → o.Lasts o') : Lasting w v := by
  obtain ⟨j, p, p', -, hp, hc, hheap⟩ := h
  intro i o ho
  rw [hheap]
  by_cases hij : i = j
  · subst hij
    cases hp.symm.trans ho
    exact ⟨p', Heap.get?_set_self (Heap.lt_size_of_get? hp) p', hchange _ _ hc⟩
  · exact ⟨o, (Heap.get?_set_of_ne hij p').trans ho, .refl o⟩

/-- Every object lasts over any operation that calls nothing. -/
theorem request (henv : env.hooks.Within (Action.Leads Still)) {request : Request}
    (hcall : request.CallsNothing) (w : World σ) : Lasting w ((request.run env).after w) := by
  rcases Request.reads_or_writes hcall with hreads | ⟨r, hr⟩
  · exact .of_retains (Request.leads_retains henv hreads w)
  · rcases Request.still_or_amends henv hr with h | h
    · exact .of_retains (.of_still h)
    · exact .of_amended h fun _ _ hc => hc.lasts

end Lasting

/-- What operations that call nothing, and the ways to make objects, come to in any
    number, one after the other. Meanwhile the host may do what leaves objects alone. -/
inductive Passed (w : World σ) : World σ → Prop
  | refl : Passed w w
  | request {v : World σ} {env : Environment σ} {request : Request} :
      Passed w v → env.hooks.Within (Action.Leads Still) → request.CallsNothing →
      Passed w ((request.run env).after v)
  | make {v : World σ} (payload : Option Payload) (type : Ref) :
      Passed w v → Passed w ((make payload type).after v)
  | fresh {v : World σ} (payload : Payload) : Passed w v → Passed w ((fresh payload).after v)
  | still {v v' : World σ} : Passed w v → Still v v' → Passed w v'

/-- **Every object lasts** over any number of operations. -/
theorem Passed.lasting (h : Passed w v) : Lasting w v := by
  induction h with
  | refl => exact .of_retains (.refl w)
  | request _ henv hcall ih => exact ih.trans (.request henv hcall _)
  | make payload type _ ih => exact ih.trans (.of_retains (make_leads_retains payload type _))
  | fresh payload _ ih => exact ih.trans (.of_retains (fresh_leads_retains payload _))
  | still _ hstill ih => exact ih.trans (.of_retains (.of_still hstill))

/-! ## The main result -/

/-- **Operations leave alone what they are not for.** In every state of a lawful run, and
    with hooks that may abort but leave objects alone:
    what only reads, and the ways to make objects, leave every object as it was, however
    they end. An append, a store, a binding or an unbinding that succeeds changes its
    receiver and nothing else; one that fails, or is left, changes nothing. A step of an
    iterator moves that iterator, or changes nothing. What is done to the tables concerns
    one name alone. Over any number of operations every object lasts. -/
theorem operations_retain_or_amend (henv : env.hooks.Within (Action.Leads Still))
    (hw : Lawful w) :
    (∀ request : Request, request.Reads → Retains w ((request.run env).after w)) ∧
    (∀ payload, Retains w ((fresh payload).after w)) ∧
    (∀ payload type, Retains w ((make payload type).after w)) ∧
    (∀ (request : Request) r, request.receiver? = some r → (∀ a, request ≠ .unary .next a) →
      Atomic Response.Succeeded r (request.Changes w) (request.run env) w) ∧
    (∀ r, Still w (((Request.unary .next r).run env).after w) ∨
      Amended r ((Request.unary .next r).Changes w) w
        (((Request.unary .next r).run env).after w)) ∧
    (∀ i o, w.heap.get? i = some o → ∀ name,
      (∀ value, o.attributes.Rebinds name (some value) (o.attributes.insert name value)) ∧
      o.attributes.Rebinds name none (o.attributes.erase name) ∧
      ∀ entries value, o.payload = .dict entries →
        entries.Rebinds name (some value) (entries.insert name value)) ∧
    (∀ w', Passed w w' → Lasting w w') := by
  refine ⟨fun request hreads => Request.leads_retains henv hreads w,
    fun payload => fresh_leads_retains payload w,
    fun payload type => make_leads_retains payload type w,
    fun request r hr hnext => Request.atomic henv hr hnext,
    fun r => Request.next_still_or_amends henv r, fun i o ho name => ?_,
    fun w' h => h.lasting⟩
  have hfits := hw.sound.fits i o ho
  refine ⟨hfits.named.rebinds_insert name, hfits.named.rebinds_erase name,
    fun entries value hp => ?_⟩
  exact (hfits.payload.ordered entries hp).rebinds_insert name value

/-- A hook that answers every failure with an abort. -/
def refusing : Environment Unit where
  hooks := { onFailure := some fun _ => Action.abort (.host []) }

theorem refusing_within : refusing.hooks.Within (Action.Leads Still) where
  onFailure hook h cause w := by
    cases h
    exact rfl
  onUnsupported := nofun

/-- To append to None fails, the hook leaves the operation, and nothing has changed. -/
theorem operations_retain_or_amend_refusing :
    let request := Request.binary .append (some noneId) (some noneId)
    refusing.hooks.Within (Action.Leads Still) ∧ Lawful (World.initial ()) ∧
      ∃ w', request.run refusing (.initial ()) = .error (.host []) w' ∧ Still (.initial ()) w' := by
  obtain ⟨-, -, -, hatomic, -⟩ := operations_retain_or_amend refusing_within (.start ())
  have happend := hatomic (.binary .append (some noneId) (some noneId)) (some noneId) rfl nofun
  exact ⟨refusing_within, .start (), _, rfl, happend⟩

end ValueEngine

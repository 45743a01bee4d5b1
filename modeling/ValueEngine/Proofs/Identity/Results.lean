/-
  Value engine — which object an operation gives.

  What an operation that succeeds gives is an object that was never there before, the very
  object that was stored somewhere, or None. Which of these it is depends on the operation
  and on the contents of its operands alone, and an operation that gives a new object leaves
  all others as they were.

  * `Request.Makes`: what new object an operation makes; `Bears`: how it gives it.
  * `Request.Fetches`: where an operation finds the object that it gives.
  * `Request.Acknowledges`: operations that have nothing to give.
  * `Spotless`: actions that leave every object as it was unless they tell of a failure.
  * `Yields`: actions that make an object or find one; `Request.gives`: all operations.
-/
import ValueEngine.Proofs.Effects.Requests
import ValueEngine.Proofs.Operator.Dispatch
import ValueEngine.Proofs.Reporting.Operations
import ValueEngine.Proofs.Slicing.Selection

namespace ValueEngine

variable {σ α β : Type} {hooks : Hooks σ} {w v : World σ} {i : ObjId} {o : Object} {p : Payload}
  {access : Access} {l : Loan}

/-! ## What is given -/

/-- The operation that an operator is. -/
def Operator.verb : Operator → Binary
  | add => .add
  | subtract => .subtract
  | multiply => .multiply
  | divide => .divide

/-- A request that the table leaves to the host: an operator on objects of kinds that it has no
    entry for. -/
def Request.Offered (w : World σ) (request : Request) : Prop :=
  ∃ (op : Operator) (i j : ObjId) (p q : Payload),
    request = .binary op.verb (some i) (some j) ∧ w.heap.contents i = some p ∧
      w.heap.contents j = some q ∧ (op, p.kind, q.kind) ∉ Operator.entries

/-- The operations on two references that answer a question. -/
def Binary.tests : List Binary := [.equal, .different, .below, .atMost, .above, .atLeast, .contains]

/-- What a request that makes an object makes it of: what the table makes of two operands, an
    answer, an order or a length as a number, an iterator at the beginning of a sequence,
    what a slice selects, or a byte of a string. -/
inductive Request.Makes (w : World σ) : Request → Payload → Prop
  | arithmetic {op : Operator} {i j : ObjId} {p q made : Payload} :
      w.heap.contents i = some p → w.heap.contents j = some q →
      op.tabled w.settings.textLimit p q = some (.ok made) →
      Makes w (.binary op.verb (some i) (some j)) made
  | test {verb : Binary} {a b : Ref} (answer : Bool) :
      verb ∈ Binary.tests → Makes w (.binary verb a b) (.boolean answer)
  | rank {a b : Ref} (order : Ordering) :
      Makes w (.binary .rank a b) (.integer (Checked.sign order))
  | length {i : ObjId} {p : Payload} {n : Nat} {value : Int32} :
      w.heap.contents i = some p → p.length? = some n → Checked.ofInt? n = some value →
      Makes w (.unary .length (some i)) (.integer value)
  | iterate {i : ObjId} {p : Payload} {elements : List Ref} :
      w.heap.contents i = some p → p.elements? = some elements →
      Makes w (.unary .iterate (some i)) (.iterator { target := some i })
  | slice {i j : ObjId} {p : Payload} {units : List (UInt8 ⊕ Ref)} {bounds : SliceBounds} :
      w.heap.contents i = some p → w.heap.contents j = some (.slice bounds) →
      p.units? = some units → bounds.step ≠ some 0 →
      Makes w (.binary .item (some i) (some j))
        (p.restricted (bounds.progression units.length).places)
  | byte {i j : ObjId} {text : Bytes} {index : Int32} {place : Nat} {b : UInt8} :
      w.heap.contents i = some (.string text) → w.heap.contents j = some (.integer index) →
      position? index text.length = some place → text[place]? = some b →
      Makes w (.binary .item (some i) (some j)) (.string [b])

/-- What a name is bound to first on the type links from a reference. -/
inductive Heap.Inherits (h : Heap) (name : Bytes) : Ref → ObjId → Prop
  | own {i value : ObjId} {o : Object} :
      h.get? i = some o → o.attributes.find? name = some value → Inherits h name (some i) value
  | link {i value : ObjId} {o : Object} :
      h.get? i = some o → o.attributes.find? name = none → Inherits h name o.type value →
      Inherits h name (some i) value

/-- Where a request that looks something up finds it: an element, an entry, an attribute, or
    the element that an iterator is at. -/
inductive Request.Fetches (w : World σ) : Request → ObjId → Prop
  | element {i j r : ObjId} {p : Payload} {elements : List Ref} {index : Int32} {place : Nat} :
      w.heap.contents i = some p → w.heap.contents j = some (.integer index) →
      p.elements? = some elements → position? index elements.length = some place →
      elements[place]? = some (some r) → Fetches w (.binary .item (some i) (some j)) r
  | entry {i j r : ObjId} {entries : Table Ref} {name : Bytes} :
      w.heap.contents i = some (.dict entries) → w.heap.contents j = some (.string name) →
      entries.find? name = some (some r) → Fetches w (.binary .item (some i) (some j)) r
  | attribute {a : Ref} {name : Bytes} {r : ObjId} :
      w.heap.Inherits name a r → Fetches w (.readAttribute a name) r
  | next {i t r : ObjId} {cursor : Cursor} {p : Payload} {elements : List Ref} :
      w.heap.contents i = some (.iterator cursor) → cursor.target = some t →
      w.heap.contents t = some p → p.elements? = some elements → cursor.exhausted = false →
      elements[cursor.position]? = some (some r) → Fetches w (.unary .next (some i)) r

/-- The requests that change something and have nothing to give. -/
def Request.Acknowledges : Request → Prop
  | .binary .append _ _ | .store .. | .unbindAttribute .. => True
  | _ => False

/-- A world with one object more than before, which is given and holds a payload. It is
    of the canonical type of its kind, has no attributes, and is lent to nobody. -/
structure Bears (p : Payload) (w : World σ) (r : ObjId) (w' : World σ) : Prop where
  fresh : r = w.nextId
  heap : w'.heap = (w.heap.allocate p.newborn).2

namespace Bears

variable {r : ObjId} {w' : World σ}

theorem of_still (h : Bears p v r w') (hv : Still w v) : Bears p w r w' where
  fresh := h.fresh.trans (congrArg (fun heap : Heap => ObjId.mk heap.size) hv)
  heap := h.heap.trans (congrArg (fun heap : Heap => (heap.allocate p.newborn).2) hv)

theorem endLoan (h : Bears p (w.lent i o l) r w') (ho : w.heap.get? i = some o)
    (hl : access.acquire o.loan = .ok l) : Bears p w r (w'.endLoan access i) where
  fresh := h.fresh.trans (World.nextId_lent w i o l)
  heap := by
    rw [World.endLoan, h.heap]
    exact congrArg World.heap (World.endLoan_added ho hl p.newborn)

/-- The identity of what is given was never given out. -/
theorem get?_eq_none (h : Bears p w r w') : w.heap.get? r = none := by
  rw [h.fresh]
  exact World.get?_nextId w

theorem get?_self (h : Bears p w r w') : w'.heap.get? r = some p.newborn := by
  rw [h.heap, h.fresh]
  exact World.get?_added_nextId p.newborn w

/-- All other objects are as they were. -/
theorem get?_of_ne (h : Bears p w r w') {j : ObjId} (hj : j ≠ r) :
    w'.heap.get? j = w.heap.get? j := by
  rw [h.heap]
  exact Heap.get?_allocate_of_ne (by rwa [h.fresh] at hj)

theorem contents_self (h : Bears p w r w') : w'.heap.contents r = some p :=
  Heap.contents_of_get? h.get?_self

theorem contents_of_ne (h : Bears p w r w') {j : ObjId} (hj : j ≠ r) :
    w'.heap.contents j = w.heap.contents j :=
  congrArg (Option.map Object.payload) (h.get?_of_ne hj)

end Bears

/-- An action that comes to anything comes to what always holds. -/
theorem Action.Arrives.always {x : Action σ α} {done : α → World σ → Prop} {left : World σ → Prop}
    (hd : ∀ a v, done a v) (hl : ∀ v, left v) : x.Arrives w done left := by
  cases hr : x w with
  | ok a v => exact .of_ok hr (hd a v)
  | error e v => exact .of_error hr (hl v)

/-! ## Actions that tell of a failure or change nothing -/

/-- An action that leaves every object as it was, unless its value says that it failed. -/
def Spotless (finish : α → Finish) (x : Action σ α) : Prop :=
  ∀ w, x.Arrives w (fun a v => finish a = .well → Still w v) fun _ => True

namespace Spotless

variable {finish : α → Finish} {finish' : β → Finish}

theorem pure (a : α) : Spotless finish (Pure.pure a : Action σ α) :=
  fun _ => .of_ok rfl fun _ => rfl

/-- What says that it failed may have done anything. -/
theorem then_failed (x : Action σ β) {a : α} (ha : finish a ≠ .well) :
    Spotless finish (do let _ ← x; return a) :=
  fun _ => .bind (.always (fun _ _ => .of_ok rfl fun h => absurd h ha) fun _ => trivial)

theorem bind {x : Action σ α} {f : α → Action σ β} (hx : Spotless finish x)
    (hon : ∀ a, finish a ≠ .well → ∃ b, finish' b ≠ .well ∧ f a = Pure.pure b)
    (hf : ∀ a, finish a = .well → Spotless finish' (f a)) : Spotless finish' (x >>= f) := by
  refine fun w => .bind ((hx w).mono (fun a v hv => ?_) fun _ h => h)
  by_cases ha : finish a = .well
  · exact (hf a ha v).mono (fun b u hu hb => (hu hb).trans (hv ha)) fun _ h => h
  · obtain ⟨b, hb, hpure⟩ := hon a ha
    rw [hpure]
    exact .of_ok rfl fun h => absurd h hb

theorem map {x : Action σ α} (hx : Spotless finish x) {g : α → β}
    (hg : ∀ a, finish' (g a) = finish a) : Spotless finish' (do return g (← x)) :=
  hx.bind (fun a ha => ⟨g a, hg a ▸ ha, rfl⟩) fun a _ => .pure (g a)

theorem lend {r : Ref} {body : ObjId → Object → Action σ α}
    (hb : ∀ i o, Spotless finish (body i o)) : Spotless finish (lend access r body) :=
  fun _ => .lend trivial fun i _ _ _ ho hl => (hb i _ _).mono
    (fun _ _ hv ha => still_lent ho hl (hv ha)) fun _ h => h

end Spotless

theorem Verdict.eq_failed {verdict : Verdict} (h : verdict.finish ≠ .well) :
    ∃ cause, verdict = .failed cause := by
  cases verdict with
  | failed cause => exact ⟨cause, rfl⟩
  | _ => exact absurd rfl h

theorem refuse_spotless (a b : Object) : Spotless Verdict.finish (refuse hooks a b) :=
  .then_failed _ nofun

theorem allEqual_spotless {test : Ref → Ref → Comparing σ Verdict}
    (ht : ∀ l r pairs, Spotless (·.1.finish) (test l r pairs)) (ls rs : List Ref)
    (pairs : List (ObjId × ObjId)) : Spotless (·.1.finish) (allEqual test ls rs pairs) := by
  induction ls generalizing rs pairs with
  | nil => exact .pure _
  | cons l ls ih =>
    cases rs with
    | nil => exact .pure _
    | cons r rs =>
      refine .bind (ht l r pairs) (fun answer hne => ?_) fun answer hwell => ?_
      · obtain ⟨verdict, pairs⟩ := answer
        obtain ⟨cause, rfl⟩ := Verdict.eq_failed hne
        exact ⟨(.failed cause, pairs), nofun, rfl⟩
      · obtain ⟨verdict, pairs⟩ := answer
        cases verdict with
        | equal => exact ih rs pairs
        | unequal => exact .pure (Verdict.unequal, pairs)
        | failed => cases hwell

theorem equality_spotless (depth : Nat) (i : ObjId) (a : Object) (j : ObjId) (b : Object)
    (pairs : List (ObjId × ObjId)) :
    Spotless (·.1.finish) (equality hooks depth i a j b pairs) := by
  induction depth generalizing i a j b pairs with
  | zero => exact fun _ => .of_error rfl trivial
  | succ depth ih =>
    simp only [equality]
    split
    · exact (refuse_spotless a b).map fun _ => rfl
    split
    · exact .pure _
    split
    · exact .pure _
    · exact .pure _
    · split
      · exact .pure _
      split
      · exact .pure _
      refine .map (allEqual_spotless (fun l r pairs => ?_) _ _ _) fun _ => rfl
      exact .lend fun i a => .lend fun j b => ih i a j b pairs
    · exact (refuse_spotless a b).map fun _ => rfl

theorem judge_spotless (i : ObjId) (a : Object) (j : ObjId) (b : Object) :
    Spotless Verdict.finish (judge hooks i a j b) := by
  have hheap : Spotless (fun _ => .well) (Action.heap : Action σ Heap) :=
    fun _ => .of_ok rfl fun _ => rfl
  refine hheap.bind (fun _ h => absurd rfl h) fun heap _ => ?_
  exact (equality_spotless _ i a j b []).map fun _ => rfl

theorem matchElement_spotless (j : ObjId) (needle : Object) (element : Ref) :
    Spotless Verdict.finish (matchElement hooks j needle element) := by
  unfold matchElement
  split
  · exact .pure _
  refine .lend fun i candidate => ?_
  split
  · exact .pure _
  · exact judge_spotless i candidate j needle

theorem orderOf_spotless (a b : Object) : Spotless orderFinish (orderOf hooks a b) := by
  unfold orderOf
  split
  · exact .pure _
  · exact .then_failed _ nofun

/-! ## Actions that make an object or find one -/

/-- What fails gives nothing. -/
theorem fail_gives_nothing {gives : ObjId → World σ → Prop} (cause : Failure) :
    (fail hooks cause).Arrives w (fun outcome v => ∀ r, outcome = .success r → gives r v)
      fun _ => True := by
  refine (Action.Arrives.fail_or_throws hooks cause w).mono (fun outcome v h r hr => ?_)
    fun _ _ => trivial
  rw [h] at hr
  cases hr

/-- An action that gives, if it succeeds, a new object that holds what `made` says, or one
    that `found` says is to be found, and then changes nothing. -/
def Yields (w : World σ) (made : Payload → Prop) (found : ObjId → Prop)
    (x : Action σ Outcome) : Prop :=
  x.Arrives w (fun outcome v => ∀ r, outcome = .success r →
    (∃ p, made p ∧ Bears p w r v) ∨ (found r ∧ Still w v)) fun _ => True

namespace Yields

variable {made : Payload → Prop} {found : ObjId → Prop} {x : Action σ Outcome}

theorem fail (cause : Failure) : Yields w made found (fail hooks cause) := fail_gives_nothing cause

theorem freshValue (hp : made p) : Yields w made found (freshValue p) := by
  cases hmissing : p.missingPart? with
  | none =>
    refine .of_ok (freshValue_eq hmissing w) fun r hr => ?_
    cases hr
    exact .inl ⟨p, hp, rfl, rfl⟩
  | some e =>
    refine .of_error (e := e) (v := w) ?_ trivial
    simp only [ValueEngine.freshValue, ValueEngine.fresh, hmissing]
    rfl

theorem succeed {r : Ref} (h : ∀ e, r = some e → found e) :
    Yields w made found (Action.succeed r) := by
  cases r with
  | none => exact .of_error rfl trivial
  | some e =>
    refine .of_ok rfl fun r hr => ?_
    cases hr
    exact .inr ⟨h e rfl, rfl⟩

theorem of_still (h : Yields v made found x) (hv : Still w v) :
    x.Arrives v (fun outcome u => ∀ r, outcome = .success r →
      (∃ p, made p ∧ Bears p w r u) ∨ (found r ∧ Still w u)) fun _ => True :=
  h.mono (fun _ _ hy r hr => (hy r hr).imp (fun ⟨p, hp, hb⟩ => ⟨p, hp, hb.of_still hv⟩)
    fun ⟨hf, hs⟩ => ⟨hf, hs.trans hv⟩) fun _ h => h

/-- What comes before must leave every object as it was, unless it failed. -/
theorem bind {finish : α → Finish} {x : Action σ α} {f : α → Action σ Outcome}
    (hx : Spotless finish x) (hon : ∀ a, finish a ≠ .well → ∃ cause, f a = pure (.failure cause))
    (hf : ∀ a v, x w = .ok a v → finish a = .well → Still w v → Yields v made found (f a)) :
    Yields w made found (x >>= f) := by
  have h := hx w
  refine Action.Arrives.bind ?_
  cases hr : x w with
  | error e v => exact .of_error hr trivial
  | ok a v =>
    refine .of_ok hr ?_
    by_cases ha : finish a = .well
    · have hv : Still w v := h.of_run hr ha
      exact (hf a v hr ha hv).of_still hv
    · obtain ⟨cause, hcause⟩ := hon a ha
      rw [hcause]
      exact .of_ok rfl nofun

theorem lend {r : Ref} {body : ObjId → Object → Action σ Outcome}
    (hb : ∀ i o l, r = some i → w.heap.get? i = some o → access.acquire o.loan = .ok l →
      Yields (w.lent i o l) made found (body i { o with loan := l })) :
    Yields w made found (lend access r body) := by
  refine Action.Arrives.lend trivial fun i o l hr ho hl => (hb i o l hr ho hl).mono
    (fun outcome v h e he => ?_) fun _ h => h
  exact (h e he).imp (fun ⟨p, hp, hbears⟩ => ⟨p, hp, hbears.endLoan ho hl⟩)
    fun ⟨hf, hs⟩ => ⟨hf, still_lent ho hl hs⟩

/-- Two operands that are lent together show their contents. -/
theorem withReads {a b : Ref} {body : ObjId → Object → ObjId → Object → Action σ Outcome}
    (hb : ∀ i x j y u, a = some i → b = some j → w.heap.contents i = some x.payload →
      w.heap.contents j = some y.payload → Yields u made found (body i x j y)) :
    Yields w made found (withRead a fun i x => withRead b fun j y => body i x j y) := by
  refine lend fun i x l ha hx _ => lend fun j y m hj hy _ => ?_
  have hcx : w.heap.contents i = some x.payload := Heap.contents_of_get? hx
  have hcy : (w.lent i x l).heap.contents j = some y.payload := Heap.contents_of_get? hy
  rw [World.contents_lent hx l] at hcy
  exact hb i _ j _ _ ha hj hcx hcy

end Yields

/-! ## Operations -/

section Operations

variable {made : Payload → Prop} {found : ObjId → Prop}

/-- Operands that were read together are there, and nobody writes them. -/
theorem readable_of_ok {a b : Ref} {body : ObjId → Object → ObjId → Object → Action σ α} {c : α}
    (h : (withRead a fun i x => withRead b fun j y => body i x j y) w = .ok c v) :
    ∃ i j x y, a = some i ∧ b = some j ∧ w.heap.get? i = some x ∧ w.heap.get? j = some y ∧
      x.loan ≠ .exclusive ∧ y.loan ≠ .exclusive := by
  have harrives : (withRead a fun i x => withRead b fun j y => body i x j y).Arrives w
      (fun _ _ => ∃ i j x y, a = some i ∧ b = some j ∧ w.heap.get? i = some x ∧
        w.heap.get? j = some y ∧ x.loan ≠ .exclusive ∧ y.loan ≠ .exclusive) fun _ => True := by
    refine .lend trivial fun i x l ha hx hl => .lend trivial fun j y m hb hy hm =>
      .always (fun _ _ => ?_) fun _ => trivial
    have hux := Access.acquire_read_eq_ok_iff.1 ⟨l, hl⟩
    by_cases hij : j = i
    · exact ⟨i, j, x, x, ha, hb, hx, hij ▸ hx, hux, hux⟩
    · rw [World.lent, Heap.get?_set_of_ne hij] at hy
      exact ⟨i, j, x, y, ha, hb, hx, hy, hux, Access.acquire_read_eq_ok_iff.1 ⟨m, hm⟩⟩
  exact harrives.of_run h

theorem apply_yields (op : Operator) {a b : Ref}
    (hoffer : (Request.binary op.verb a b).Offered w → hooks.onUnsupported = none) :
    Yields w (Request.Makes w (.binary op.verb a b)) found (op.apply hooks a b) := by
  unfold Yields
  cases hr : op.apply hooks a b w with
  | error e v => exact .of_error hr trivial
  | ok outcome v =>
    refine .of_ok hr ?_
    rintro r rfl
    obtain ⟨i, j, x, y, rfl, rfl, hx, hy, hux, huy⟩ : ∃ i j x y, a = some i ∧ b = some j ∧
        w.heap.get? i = some x ∧ w.heap.get? j = some y ∧ x.loan ≠ .exclusive ∧
        y.loan ≠ .exclusive := by
      cases hb : op.applyBuiltin hooks a b w with
      | ok served u => exact readable_of_ok hb
      | error e u =>
        rw [Operator.apply, Action.bind_of_error hb] at hr
        cases hr
    by_cases h : (op, x.kind, y.kind) ∈ Operator.entries
    · obtain ⟨result, hresult, harrives⟩ := apply_arrives hooks hx hy hux huy h
      have hrun := harrives.of_run hr
      cases result with
      | error cause => cases hrun
      | ok p =>
        obtain ⟨hid, rfl⟩ := hrun
        cases hid
        refine .inl ⟨p, .arithmetic (Heap.contents_of_get? hx) (Heap.contents_of_get? hy) hresult,
          rfl, ?_⟩
        rw [World.added, World.heap_traced]
    · have hnone := hoffer ⟨op, i, j, x.payload, y.payload, rfl, Heap.contents_of_get? hx,
        Heap.contents_of_get? hy, h⟩
      rw [apply_of_no_offer hx hy hux huy h hnone] at hr
      cases (Action.Arrives.fail_or_throws hooks _ w).of_run hr

theorem judged_yields {verb : Binary} (hverb : verb ∈ Binary.tests) (answer : Bool → Bool)
    (a b : Ref) : Yields w (Request.Makes w (.binary verb a b)) found
      (withRead a fun i x => withRead b fun j y => do
        (← judge hooks i x j y).outcome answer) := by
  refine .withReads fun i x j y u _ _ _ _ => ?_
  refine .bind (judge_spotless i x j y) (fun verdict hne => ?_) fun verdict v _ hwell _ => ?_
  · obtain ⟨cause, rfl⟩ := Verdict.eq_failed hne
    exact ⟨cause, rfl⟩
  · cases verdict with
    | equal => exact .freshValue (.test _ hverb)
    | unequal => exact .freshValue (.test _ hverb)
    | failed => cases hwell

theorem orderOutcome_yields {request : Request} {answer : Ordering → Payload}
    (hanswer : ∀ order, request.Makes w (answer order)) (a b : Ref) :
    Yields w (request.Makes w) found (orderOutcome hooks answer a b) := by
  refine .bind (.lend fun _ x => .lend fun _ y => orderOf_spotless x y) (fun order hne => ?_)
    fun order v _ hwell _ => ?_
  · cases order with
    | error cause => exact ⟨cause, rfl⟩
    | ok order => exact absurd rfl hne
  · cases order with
    | error cause => cases hwell
    | ok order => exact .freshValue (hanswer order)

theorem scan_yields {request : Request} (hanswer : ∀ answer, request.Makes w (.boolean answer))
    (j : ObjId) (needle : Object) (elements : List Ref) (u : World σ) :
    Yields u (request.Makes w) found (scan hooks j needle elements) := by
  induction elements generalizing u with
  | nil => exact .freshValue (hanswer false)
  | cons element rest ih =>
    refine .bind (matchElement_spotless j needle element) (fun verdict hne => ?_)
      fun verdict v _ hwell _ => ?_
    · obtain ⟨cause, rfl⟩ := Verdict.eq_failed hne
      exact ⟨cause, rfl⟩
    · cases verdict with
      | equal => exact .freshValue (hanswer true)
      | unequal => exact ih v
      | failed => cases hwell

theorem contains_yields (a b : Ref) :
    Yields w (Request.Makes w (.binary .contains a b)) found
      (Ref.contains hooks a b) := by
  have hanswer : ∀ answer, Request.Makes w (.binary .contains a b) (.boolean answer) :=
    fun answer => .test answer (by decide)
  refine .withReads fun i x j y u _ _ _ _ => ?_
  unfold membership
  split
  · exact scan_yields hanswer j y _ u
  · exact scan_yields hanswer j y _ u
  · exact .freshValue (hanswer _)
  · exact .fail _
  · exact .freshValue (hanswer _)
  · exact .fail _
  · exact .fail _

theorem length_yields (a : Ref) :
    Yields w (Request.Makes w (.unary .length a)) found (Ref.length hooks a) := by
  refine .lend fun i x l ha hx _ => ?_
  subst ha
  dsimp only
  cases hn : x.payload.length? with
  | none => exact .fail _
  | some n =>
    dsimp only
    unfold lengthOutcome
    split
    · rename_i value hvalue
      exact .freshValue (.length (Heap.contents_of_get? hx) hn hvalue)
    · exact .fail _

theorem iterate_yields (a : Ref) :
    Yields w (Request.Makes w (.unary .iterate a)) found (Ref.iterate hooks a) := by
  refine Action.Arrives.bind ?_
  rcases peek_cases a w with ⟨e, h⟩ | ⟨i, o, loan, rfl, ho, h⟩
  · exact .of_error h trivial
  · refine .of_ok h ?_
    dsimp only
    split
    · rename_i elements helements
      exact Yields.freshValue (.iterate (Heap.contents_of_get? ho) helements)
    · exact Yields.fail _

/-- What a slice selects is what stands at its places. -/
theorem SliceBounds.select?_eq_some {bounds : SliceBounds} {xs selected : List α}
    (h : bounds.select? xs = some selected) : bounds.step ≠ some 0 ∧
      selected = (bounds.progression xs.length).places.filterMap (xs[·]?) := by
  have hs : bounds.step ≠ some 0 := by
    intro hs
    rw [select?, positions?_eq_none_iff.2 hs] at h
    cases h
  rw [select?, positions?_eq hs] at h
  exact ⟨hs, (Option.some.inj h).symm⟩

section Item

variable {j : ObjId} {key : Payload} (u : World σ) (hj : w.heap.contents j = some key)
include hj

theorem sequenceItem_yields {whole : List Ref → Payload} {elements : List Ref}
    (hwhole : whole = .list ∨ whole = .tuple)
    (hi : w.heap.contents i = some (whole elements)) :
    Yields u (Request.Makes w (.binary .item (some i) (some j)))
      (Request.Fetches w (.binary .item (some i) (some j)))
      (sequenceItem hooks whole elements key) := by
  unfold sequenceItem
  split
  · split
    · rename_i place hplace
      refine .succeed fun r hr => ?_
      rcases hwhole with rfl | rfl <;>
        exact .element hi hj rfl hplace (Option.join_eq_some_iff.1 hr)
    · exact .fail _
  · split
    · rename_i selected hselected
      obtain ⟨hs, rfl⟩ := SliceBounds.select?_eq_some hselected
      refine .freshValue ?_
      rcases hwhole with rfl | rfl
      all_goals
        have hmade := Request.Makes.slice hi hj rfl hs
        rw [List.length_map] at hmade
        exact hmade
    · exact .fail _
  · exact .fail _

theorem textItem_yields {text : Bytes} (hi : w.heap.contents i = some (.string text)) :
    Yields u (Request.Makes w (.binary .item (some i) (some j)))
      (Request.Fetches w (.binary .item (some i) (some j))) (textItem hooks text key) := by
  unfold textItem
  split
  · split
    · rename_i place hplace
      have hlt : place < text.length := position?_lt hplace
      have hb : text[place]? = some text[place] := List.getElem?_eq_getElem hlt
      refine .freshValue ?_
      rw [hb]
      exact .byte hi hj hplace hb
    · exact .fail _
  · split
    · rename_i selected hselected
      obtain ⟨hs, rfl⟩ := SliceBounds.select?_eq_some hselected
      have hmade := Request.Makes.slice hi hj rfl hs
      rw [List.length_map] at hmade
      exact .freshValue hmade
    · exact .fail _
  · exact .fail _

theorem entryItem_yields {entries : Table Ref} (hi : w.heap.contents i = some (.dict entries)) :
    Yields u (Request.Makes w (.binary .item (some i) (some j)))
      (Request.Fetches w (.binary .item (some i) (some j))) (entryItem hooks entries key) := by
  unfold entryItem
  split
  · split
    · rename_i value hvalue
      refine .succeed fun r hr => ?_
      subst hr
      exact .entry hi hj hvalue
    · exact .fail _
  · exact .fail _

end Item

theorem item_yields (a b : Ref) :
    Yields w (Request.Makes w (.binary .item a b)) (Request.Fetches w (.binary .item a b))
      (Ref.item hooks a b) := by
  refine .withReads fun i x j y u ha hb hx hy => ?_
  subst ha hb
  unfold itemOf
  split
  · rename_i hp
    exact sequenceItem_yields u hy (.inl rfl) (hp ▸ hx)
  · rename_i hp
    exact sequenceItem_yields u hy (.inr rfl) (hp ▸ hx)
  · rename_i hp
    exact textItem_yields u hy (hp ▸ hx)
  · rename_i hp
    exact entryItem_yields u hy (hp ▸ hx)
  · exact .fail _

/-! ### Look-ups -/

/-- A look-up that comes to something comes to what is bound first, and changes nothing. -/
theorem lookup_arrives (name : Bytes) (links : Nat) (r : Ref) (w : World σ) :
    (lookup name links r).Arrives w
      (fun value v => v = w ∧ ∀ e, value = some e → w.heap.Inherits name r e) fun _ => True := by
  induction links generalizing r with
  | zero =>
    cases r with
    | none => exact .of_ok rfl ⟨rfl, nofun⟩
    | some i => exact .of_error rfl trivial
  | succ links ih =>
    cases r with
    | none => exact .of_ok rfl ⟨rfl, nofun⟩
    | some i =>
      refine .bind ?_
      rcases peek_cases (some i) w with ⟨e, h⟩ | ⟨_, o, loan, ⟨⟩, ho, h⟩
      · exact .of_error h trivial
      · refine .of_ok h ?_
        dsimp only
        cases hfind : o.attributes.find? name with
        | some value =>
          refine .of_ok rfl ⟨rfl, fun e he => ?_⟩
          cases he
          exact .own ho hfind
        | none => exact (ih o.type).mono (fun value v ⟨hv, hfound⟩ =>
            ⟨hv, fun e he => .link ho hfind (hfound e he)⟩) fun _ h => h

theorem readAttribute_yields (a : Ref) (name : Bytes) :
    Yields w made (Request.Fetches w (.readAttribute a name))
      (Ref.readAttribute hooks a name) := by
  have hheap : (Action.heap : Action σ Heap) w = .ok w.heap w := rfl
  have hbinding : (Ref.binding a name).Arrives w
      (fun value v => v = w ∧ ∀ e, value = some e → w.heap.Inherits name a e) fun _ => True :=
    .bind (.of_ok hheap (lookup_arrives name _ a w))
  refine Action.Arrives.bind (hbinding.mono (fun value v ⟨hv, hfound⟩ => ?_) fun _ h => h)
  subst hv
  cases value with
  | some e =>
    refine .of_ok rfl fun r hr => ?_
    cases hr
    exact .inr ⟨.attribute (hfound e rfl), rfl⟩
  | none =>
    refine .bind ?_
    rcases peek_cases a v with ⟨e, h⟩ | ⟨i, o, loan, rfl, ho, h⟩
    · exact .of_error h trivial
    · exact .of_ok h (Yields.fail _)

theorem Cursor.of_next_eq_some {c : Cursor} {elements : List Ref} {element : Ref}
    (h : (c.next elements).2 = some element) :
    c.exhausted = false ∧ elements[c.position]? = some element := by
  unfold next at h
  split at h
  · cases h
  · rename_i hexhausted
    split at h <;> cases h
    rename_i helement
    exact ⟨by simpa using hexhausted, helement⟩

/-- A step of an iterator that gives an element gives the one that it was at, and moves the
    iterator alone. -/
theorem next_fetches (a : Ref) : (Ref.next hooks a).Arrives w
    (fun outcome v => ∀ r, outcome = .success r → Request.Fetches w (.unary .next a) r ∧
      Amended a ((Request.unary .next a).Changes w) w v) fun _ => True := by
  refine .lend trivial fun i o l ha ho hl => ?_
  subst ha
  cases hp : o.payload with
  | iterator cursor =>
    dsimp only
    refine .lend trivial fun t p m ht htp hm => ?_
    dsimp only
    split
    · rename_i elements helements
      refine .bind (.of_ok rfl ?_)
      cases hnext : (cursor.next elements).2 with
      | none => exact .of_ok rfl nofun
      | some element =>
        cases element with
        | none => exact .of_error rfl trivial
        | some e =>
          refine .of_ok rfl fun r hr => ?_
          cases hr
          obtain ⟨hexhausted, helement⟩ := Cursor.of_next_eq_some hnext
          have hct : (w.lent i o l).heap.contents t = some p.payload := Heap.contents_of_get? htp
          rw [World.contents_lent ho l] at hct
          have hci : w.heap.contents i = some (.iterator cursor) := hp ▸ Heap.contents_of_get? ho
          refine ⟨.next hci ht hct helements hexhausted helement, ?_⟩
          let moving (o : Object) : Object :=
            { o with payload := o.payload.movedTo (cursor.next elements).1 }
          have hback : ((((w.lent i o l).lent t p m).edited i moving).endLoan .read t).endLoan
              .write i = w.edited i moving := by
            rw [World.endLoan_edited htp hm fun _ _ => rfl,
              World.endLoan_edited ho hl fun _ _ => rfl]
          have hmoved : Amended (some i) ((Request.unary .next (some i)).Changes w) w
              (w.edited i moving) := by
            refine amended_edited ho ?_
            simp only [moving, hp]
            exact .next hp
          rw [← hback] at hmoved
          exact hmoved
    · exact fail_gives_nothing _
  | _ => exact fail_gives_nothing _

/-! ### Writers -/

theorem replaceOrFail_acknowledges (i : ObjId) (result : Except Failure Payload) :
    (replaceOrFail hooks i result).Arrives w
      (fun outcome _ => ∀ r, outcome = .success r → r = noneId) fun _ => True := by
  cases result with
  | ok q => exact .of_ok rfl fun r hr => by cases hr; rfl
  | error cause => exact fail_gives_nothing cause

theorem append_acknowledges (a value : Ref) : (Ref.append hooks a value).Arrives w
    (fun outcome _ => ∀ r, outcome = .success r → r = noneId) fun _ => True := by
  cases value with
  | none => exact .of_error rfl trivial
  | some v => exact .lend trivial fun i _ _ _ _ _ => replaceOrFail_acknowledges i _

theorem store_acknowledges (a key value : Ref) : (Ref.store hooks a key value).Arrives w
    (fun outcome _ => ∀ r, outcome = .success r → r = noneId) fun _ => True := by
  cases value with
  | none => exact .of_error rfl trivial
  | some v => exact .bind (.always
      (fun _ _ => .lend trivial fun i _ _ _ _ _ => replaceOrFail_acknowledges i _)
      fun _ => trivial)

theorem unbindAttribute_acknowledges (a : Ref) (name : Bytes) :
    (Ref.unbindAttribute hooks a name).Arrives w
      (fun outcome _ => ∀ r, outcome = .success r → r = noneId) fun _ => True := by
  refine .bind (.always (fun missing v => ?_) fun _ => trivial)
  cases missing with
  | none => exact .of_ok rfl fun r hr => by cases hr; rfl
  | some kind => exact fail_gives_nothing _

end Operations

/-! ## Requests -/

/-- How a request that succeeds comes by what it gives: it made it, it found it, or it has
    nothing to give but None. Only a step of an iterator changes anything when it finds
    something, and then that iterator alone. -/
inductive Request.Gives (w : World σ) (request : Request) (r : ObjId) (w' : World σ) : Prop
  | made {p : Payload} : request.Makes w p → Bears p w r w' → Gives w request r w'
  | found : request.Fetches w r →
      (Still w w' ∨ ∃ a, request = .unary .next a ∧ Amended a (request.Changes w) w w') →
      Gives w request r w'
  | nothing : request.Acknowledges → r = noneId → Gives w request r w'

/-- To put the value another way. -/
theorem Action.Arrives.map {x : Action σ α} {g : α → β} {done : β → World σ → Prop}
    {left : World σ → Prop} (h : x.Arrives w (fun a => done (g a)) left) :
    (do return g (← x) : Action σ β).Arrives w done left :=
  .bind (h.mono (fun _ _ ha => .of_ok rfl ha) fun _ h => h)

theorem Yields.gives {request : Request} {x : Action σ Outcome}
    (h : Yields w (request.Makes w) (request.Fetches w) x) :
    (do return .outcome (← x) : Action σ Response).Arrives w
      (fun response v => ∀ r, response = .outcome (.success r) → request.Gives w r v)
      fun _ => True := by
  refine .map (h.mono (fun outcome v hy r hr => ?_) fun _ h => h)
  cases hr
  rcases hy r rfl with ⟨p, hp, hb⟩ | ⟨hf, hs⟩
  · exact .made hp hb
  · exact .found hf (.inl hs)

theorem gives_of_acknowledges {request : Request} {x : Action σ Outcome}
    (hrequest : request.Acknowledges)
    (h : x.Arrives w (fun outcome _ => ∀ r, outcome = .success r → r = noneId) fun _ => True) :
    (do return .outcome (← x) : Action σ Response).Arrives w
      (fun response v => ∀ r, response = .outcome (.success r) → request.Gives w r v)
      fun _ => True := by
  refine .map (h.mono (fun outcome v hy r hr => ?_) fun _ h => h)
  cases hr
  exact .nothing hrequest (hy r rfl)

/-- **Every request that calls nothing gives what it made, what it found, or None**, if it
    succeeds without the host serving an operator. -/
theorem Request.gives {env : Environment σ} {request : Request}
    (hoffer : request.Offered w → env.hooks.onUnsupported = none)
    (hcall : request.CallsNothing) : (request.run env).Arrives w
      (fun response v => ∀ r, response = .outcome (.success r) → request.Gives w r v)
      fun _ => True := by
  cases request with
  | binary verb a b =>
    cases verb with
    | add => exact (apply_yields .add hoffer).gives
    | subtract => exact (apply_yields .subtract hoffer).gives
    | multiply => exact (apply_yields .multiply hoffer).gives
    | divide => exact (apply_yields .divide hoffer).gives
    | equal => exact (judged_yields (by decide : Binary.equal ∈ Binary.tests) id a b).gives
    | different => exact (judged_yields (by decide : Binary.different ∈ Binary.tests) not a b).gives
    | below | atMost | above | atLeast =>
      exact (orderOutcome_yields (fun order => .test _ (by decide)) a b).gives
    | rank => exact (orderOutcome_yields (fun order => .rank order) a b).gives
    | item => exact (item_yields a b).gives
    | append => exact gives_of_acknowledges trivial (append_acknowledges a b)
    | contains => exact (contains_yields a b).gives
  | unary verb a =>
    cases verb with
    | length => exact (length_yields a).gives
    | iterate => exact (iterate_yields a).gives
    | next =>
      refine .map ((next_fetches a).mono (fun outcome v hy r hr => ?_) fun _ h => h)
      cases hr
      obtain ⟨hfetches, hamended⟩ := hy r rfl
      exact .found hfetches (.inr ⟨a, rfl, hamended⟩)
  | store a key value => exact gives_of_acknowledges trivial (store_acknowledges a key value)
  | readAttribute a name => exact (readAttribute_yields a name).gives
  | unbindAttribute a name =>
    exact gives_of_acknowledges trivial (unbindAttribute_acknowledges a name)
  | knows a name => exact .map (.always (fun _ _ => nofun) fun _ => trivial)
  | bindAttribute a name value =>
    exact .bind (.always (fun _ _ => .of_ok rfl nofun) fun _ => trivial)
  | text a => exact .map (.always (fun _ _ => nofun) fun _ => trivial)
  | truth a => exact .map (.always (fun _ _ => nofun) fun _ => trivial)
  | call f args => exact hcall.elim

end ValueEngine

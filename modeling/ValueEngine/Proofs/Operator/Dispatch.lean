/-
  Value engine — who serves an operator.

  The table serves seven operators on two kinds each, and the host is not asked about
  these. All others the host is offered, once and with nothing lent for it; what it makes
  of them counts if it says so, and is as if it had never been otherwise.

  * `Operator.entries`, `supports_iff_mem_entries`: what the table serves.
  * `Operator.tabled`, `conclude`: what comes of it (`builtin?_eq_conclude`).
  * `apply_of_mem_entries`, `apply_of_offer`, `apply_of_no_offer`: who serves what.
  * `Hooks.Notes`: hosts that note what they are offered.
  * `operators_dispatch`: all of this, for every operator and every pair of operands.
-/
import ValueEngine.Proofs.Effects.Newborn

namespace ValueEngine

variable {σ α β : Type} {hooks : Hooks σ} {w : World σ} {op : Operator} {i j : ObjId}
  {x y o : Object} {p q : Payload}

/-! ## The table -/

namespace Operator

/-- What the table has entries for. -/
def entries : List (Operator × Kind × Kind) :=
  [(.add, .integer, .integer), (.add, .string, .string), (.add, .list, .list),
    (.subtract, .integer, .integer), (.multiply, .integer, .integer),
    (.multiply, .string, .integer), (.divide, .integer, .integer)]

theorem supports_iff_mem_entries {left right : Kind} :
    op.supports left right = true ↔ (op, left, right) ∈ entries := by
  unfold supports
  split
  case h_8 h₁ h₂ h₃ h₄ h₅ h₆ h₇ =>
    simp only [Bool.false_eq_true, false_iff]
    simp only [entries, List.mem_cons, Prod.mk.injEq, List.not_mem_nil, or_false]
    rintro (h | h | h | h | h | h | h)
    · exact h₁ h.1 h.2.1 h.2.2
    · exact h₂ h.1 h.2.1 h.2.2
    · exact h₃ h.1 h.2.1 h.2.2
    · exact h₄ h.1 h.2.1 h.2.2
    · exact h₅ h.1 h.2.1 h.2.2
    · exact h₆ h.1 h.2.1 h.2.2
    · exact h₇ h.1 h.2.1 h.2.2
  all_goals simp [entries]

/-- An integer of 32 bits, or the overflow of an operator. -/
def integral (op : Operator) (value : Int) : Except Failure Payload :=
  if -2147483648 ≤ value ∧ value < 2147483648 then .ok (.integer (Int32.ofInt value))
  else .error (.arithmeticOverflow op)

/-- A string within the limit, or the failure that stands in its place. -/
def limited (limit : Nat) (text : Bytes) (cause : Failure) : Except Failure Payload :=
  if text.length ≤ limit then .ok (.string text) else .error cause

/-- What the table makes of two payloads, if it has an entry for them: what the result
    holds, or a failure. -/
def tabled (limit : Nat) : Operator → Payload → Payload → Option (Except Failure Payload)
  | .add, .integer x, .integer y => some (integral .add (x.toInt + y.toInt))
  | .subtract, .integer x, .integer y => some (integral .subtract (x.toInt - y.toInt))
  | .multiply, .integer x, .integer y => some (integral .multiply (x.toInt * y.toInt))
  | .divide, .integer x, .integer y =>
    some (if y = 0 then .error .divisionByZero else integral .divide (x.toInt.tdiv y.toInt))
  | .add, .string s, .string t => some (limited limit (s ++ t) .textTooLong)
  | .multiply, .string s, .integer n =>
    some (limited limit (List.replicate n.toInt.toNat s).flatten .repeatedTextTooLong)
  | .add, .list ls, .list rs => some (.ok (.list (ls ++ rs)))
  | _, _, _ => none

end Operator

/-- Ends with a new object, or with a failure. -/
def conclude (hooks : Hooks σ) : Except Failure Payload → Action σ Outcome
  | .ok payload => freshValue payload
  | .error cause => fail hooks cause

theorem integerOutcome_eq_conclude (hooks : Hooks σ) (op : Operator) (value : Int) :
    integerOutcome hooks op (Checked.ofInt? value) = conclude hooks (op.integral value) := by
  unfold Checked.ofInt? Operator.integral
  have hrange : Int32.minValue.toInt ≤ value ∧ value ≤ Int32.maxValue.toInt ↔
      -2147483648 ≤ value ∧ value < 2147483648 := by
    rw [Int32.toInt_minValue, Int32.toInt_maxValue]
    omega
  by_cases h : -2147483648 ≤ value ∧ value < 2147483648
  · rw [if_pos h, if_pos (hrange.2 h)]
    rfl
  · rw [if_neg h, if_neg fun hr => h (hrange.1 hr)]
    rfl

theorem joinTexts_eq_conclude (hooks : Hooks σ) (s t : Bytes) (w : World σ) :
    joinTexts hooks s t w =
      conclude hooks (Operator.limited w.settings.textLimit (s ++ t) .textTooLong) w := by
  have hrun : joinTexts hooks s t w =
      (if w.settings.textLimit < s.length + t.length then fail hooks .textTooLong
        else freshValue (.string (s ++ t))) w := rfl
  rw [hrun, Operator.limited, List.length_append]
  by_cases h : s.length + t.length ≤ w.settings.textLimit
  · rw [if_neg (by omega), if_pos h]
    rfl
  · rw [if_pos (by omega), if_neg h]
    rfl

theorem repeatText_eq_conclude (hooks : Hooks σ) (text : Bytes) (n : Int32) (w : World σ) :
    repeatText hooks text n w = conclude hooks (Operator.limited w.settings.textLimit
      (List.replicate n.toInt.toNat text).flatten .repeatedTextTooLong) w := by
  have hrun : repeatText hooks text n w =
      (if n.toInt.toNat = 0 ∨ text = [] then freshValue (.string [])
        else if w.settings.textLimit < text.length * n.toInt.toNat then
          fail hooks .repeatedTextTooLong
        else freshValue (.string (List.replicate n.toInt.toNat text).flatten)) w := rfl
  have hlength : (List.replicate n.toInt.toNat text).flatten.length =
      text.length * n.toInt.toNat := by
    rw [List.length_flatten, List.map_replicate, List.sum_replicate_nat, Nat.mul_comm]
  rw [hrun, Operator.limited, hlength]
  by_cases hnone : n.toInt.toNat = 0 ∨ text = []
  · have hempty : (List.replicate n.toInt.toNat text).flatten = [] := by
      rcases hnone with h | h <;> simp [h]
    have hzero : text.length * n.toInt.toNat = 0 := by
      rw [← hlength, hempty, List.length_nil]
    rw [if_pos hnone, hempty, hzero, if_pos (Nat.zero_le _)]
    rfl
  · rw [if_neg hnone]
    by_cases h : text.length * n.toInt.toNat ≤ w.settings.textLimit
    · rw [if_neg (by omega), if_pos h]
      rfl
    · rw [if_pos (by omega), if_neg h]
      rfl

theorem quotientOutcome_eq_conclude (hooks : Hooks σ) (x y : Int32) :
    quotientOutcome hooks x y = conclude hooks
      (if y = 0 then .error .divisionByZero
        else Operator.divide.integral (x.toInt.tdiv y.toInt)) := by
  by_cases h : y = 0
  · simp only [quotientOutcome, if_pos h]
    rfl
  · simp only [quotientOutcome, if_neg h, Checked.divide_of_ne_zero h]
    exact integerOutcome_eq_conclude hooks .divide _

/-- **What an entry of the table does** is to end with what the table makes of the
    payloads. -/
theorem builtin?_eq_conclude {action : Action σ Outcome} (h : builtin? hooks op p q = some action)
    (w : World σ) : ∃ result, op.tabled w.settings.textLimit p q = some result ∧
      action w = conclude hooks result w := by
  unfold builtin? at h
  split at h <;> cases h
  · exact ⟨_, rfl, congrFun (integerOutcome_eq_conclude hooks .add _) w⟩
  · exact ⟨_, rfl, joinTexts_eq_conclude hooks _ _ w⟩
  · exact ⟨_, rfl, rfl⟩
  · exact ⟨_, rfl, congrFun (integerOutcome_eq_conclude hooks .subtract _) w⟩
  · exact ⟨_, rfl, congrFun (integerOutcome_eq_conclude hooks .multiply _) w⟩
  · exact ⟨_, rfl, repeatText_eq_conclude hooks _ _ w⟩
  · exact ⟨_, rfl, congrFun (quotientOutcome_eq_conclude hooks _ _) w⟩

/-- What it comes to, to end with a payload or a failure. -/
theorem conclude_arrives (hooks : Hooks σ) (result : Except Failure Payload) (w : World σ) :
    (conclude hooks result).Arrives w
      (fun outcome v => match result with
        | .ok p => outcome = .success w.nextId ∧ v = w.added p.newborn
        | .error cause => outcome = .failure cause)
      fun _ => match result with
        | .ok p => p.missingPart? ≠ none
        | .error _ => ¬hooks.Returns := by
  cases result with
  | ok p =>
    cases hp : p.missingPart? with
    | none => exact .of_ok (freshValue_eq hp w) ⟨rfl, rfl⟩
    | some e =>
      refine .of_error (v := w) (e := e) ?_ (by simp [hp])
      simp only [conclude, freshValue, fresh, hp]
      rfl
  | error cause => exact .fail_or_throws hooks cause w

/-! ## Two operands -/

/-- To put the value of what is done with a lent object another way. -/
theorem lend_map {access : Access} {r : Ref} {body : ObjId → Object → Action σ α} (f : α → β)
    (w : World σ) : lend access r (fun i o => do return f (← body i o)) w =
      (do return f (← lend access r body) : Action σ β) w := by
  cases ht : takeLoan access r w with
  | error e v => simp only [lend, ht, bind, EStateM.bind]
  | ok a v =>
    simp only [lend, ht, bind, EStateM.bind]
    cases body a.1 a.2 v <;> rfl

/-- A second operand, be it the first one again, can be read while that one is. -/
theorem get?_lent_readable {l : Loan} (hx : w.heap.get? i = some x) (hy : w.heap.get? j = some y)
    (hl : Access.read.acquire x.loan = .ok l) (huy : y.loan ≠ .exclusive) :
    ∃ m, (w.lent i x l).heap.get? j = some { y with loan := m } ∧ m ≠ .exclusive := by
  by_cases hij : i = j
  · subst hij
    cases hx.symm.trans hy
    refine ⟨l, World.get?_lent_self hx l, ?_⟩
    rintro rfl
    cases hxl : x.loan <;> simp [Access.acquire, hxl] at hl
  · exact ⟨y.loan, World.get?_lent_of_ne hy hij l, huy⟩

@[simp] theorem World.settings_traced (level : Int) (message : Bytes) (w : World σ) :
    (w.traced level message).settings = w.settings := by
  unfold traced; split <;> rfl

/-- An entry of the table is served without regard to what else the host offers. -/
theorem served_eq {limit : Nat} {result : Except Failure Payload} {action : Action σ Outcome}
    {v : World σ} {line : Bytes} (haction : builtin? hooks op p q = some action)
    (hresult : op.tabled limit p q = some result) (hlimit : v.settings.textLimit = limit)
    (offer : Option (Operator → Ref → Ref → Outcome → Action σ (Bool × Outcome))) :
    (match builtin? { hooks with onUnsupported := offer } op p q with
      | some action => do
        trace operatorLevel line
        return .ok (← action)
      | none => return .error (p.kind, q.kind) : Action σ (Except (Kind × Kind) Outcome)) v =
    (do return .ok (← do
      trace operatorLevel line
      conclude hooks result) : Action σ (Except (Kind × Kind) Outcome)) v := by
  have hsame : builtin? { hooks with onUnsupported := offer } op p q = some action := by
    rw [← haction]
    rfl
  obtain ⟨result', hresult', hrun⟩ := builtin?_eq_conclude haction (v.traced operatorLevel line)
  rw [World.settings_traced, hlimit, hresult] at hresult'
  cases hresult'
  have htraced : trace operatorLevel line v = .ok () (v.traced operatorLevel line) := rfl
  simp only [hsame, bind, EStateM.bind, htraced, hrun]

section Dispatch

variable (hx : w.heap.get? i = some x) (hy : w.heap.get? j = some y) (hux : x.loan ≠ .exclusive)
  (huy : y.loan ≠ .exclusive)
include hx hy hux huy

/-- Two operands that nobody writes are lent together. -/
theorem Action.Arrives.withOperands {body : Object → Object → Action σ α}
    {done : α → World σ → Prop} {left : World σ → Prop}
    (hbody : ∀ x y l m, body { x with loan := l } { y with loan := m } = body x y)
    (h : ∀ l m y', y'.payload = y.payload → Access.read.acquire x.loan = .ok l →
      Access.read.acquire y'.loan = .ok m → (w.lent i x l).heap.get? j = some y' →
      (body x y).Arrives ((w.lent i x l).lent j y' m)
        (fun a v => done a ((v.endLoan .read j).endLoan .read i))
        fun v => left ((v.endLoan .read j).endLoan .read i)) :
    (ValueEngine.withRead (some i) fun _ x => ValueEngine.withRead (some j) fun _ y =>
      body x y).Arrives w done left := by
  refine .withRead hx hux fun l hl => ?_
  obtain ⟨n, hy', hn⟩ := get?_lent_readable hx hy hl huy
  refine .withRead hy' hn fun m hm => ?_
  dsimp only
  rw [hbody]
  exact h l m _ rfl hl hm hy'

/-- What the table has no entry for leaves everything as it is. -/
theorem applyBuiltin_of_not_mem (h : (op, x.kind, y.kind) ∉ Operator.entries) :
    op.applyBuiltin hooks (some i) (some j) w = .ok (.error (x.kind, y.kind)) w := by
  have hnone : builtin? hooks op x.payload y.payload = none := by
    rw [← Option.not_isSome_iff_eq_none, isSome_builtin?]
    exact fun hs => h (Operator.supports_iff_mem_entries.1 hs)
  unfold Operator.applyBuiltin
  refine (Action.Arrives.withOperands hx hy hux huy (fun _ _ _ _ => rfl)
    fun l m y' _ hl hm hy' => ?_).eq_ok
  simp only [hnone]
  refine .of_ok rfl ⟨rfl, ?_⟩
  rw [World.endLoan_lent hy' hm, World.endLoan_lent hx hl]

/-- What the table has no entry for the host is offered, in the world of the call. -/
theorem apply_of_not_mem (h : (op, x.kind, y.kind) ∉ Operator.entries) :
    op.apply hooks (some i) (some j) w =
      op.applyUnsupported hooks (some i) (some j) x.kind y.kind w := by
  rw [Operator.apply, Action.bind_of_ok (applyBuiltin_of_not_mem hx hy hux huy h)]

theorem apply_of_no_offer (h : (op, x.kind, y.kind) ∉ Operator.entries)
    (hoffer : hooks.onUnsupported = none) : op.apply hooks (some i) (some j) w =
      fail hooks (.unsupportedOperands op x.kind y.kind) w := by
  rw [apply_of_not_mem hx hy hux huy h]
  simp only [Operator.applyUnsupported, hoffer]

theorem apply_of_offer {hook : Operator → Ref → Ref → Outcome → Action σ (Bool × Outcome)}
    (h : (op, x.kind, y.kind) ∉ Operator.entries) (hoffer : hooks.onUnsupported = some hook) :
    op.apply hooks (some i) (some j) w =
      match hook op (some i) (some j) .exhausted w with
      | .ok (true, outcome) v => .ok outcome v
      | .ok (false, _) v => fail hooks (.unsupportedOperands op x.kind y.kind) v
      | .error e v => .error e v := by
  rw [apply_of_not_mem hx hy hux huy h]
  simp only [Operator.applyUnsupported, hoffer, bind, EStateM.bind]
  rcases hook op (some i) (some j) .exhausted w with ⟨⟨counts, outcome⟩, v⟩ | ⟨e, v⟩
  · cases counts <;> rfl
  · rfl

variable (hooks)

omit hux in
/-- **What the table has an entry for it serves**, while both operands are lent, whatever
    else the host offers. -/
theorem apply_of_mem_entries (h : (op, x.kind, y.kind) ∈ Operator.entries) :
    ∃ result, op.tabled w.settings.textLimit x.payload y.payload = some result ∧
      ∀ offer, op.apply { hooks with onUnsupported := offer } (some i) (some j) w =
        (withRead (some i) fun _ _ => withRead (some j) fun _ _ => do
          trace operatorLevel (op.tracedAs x.kind y.kind)
          conclude hooks result : Action σ Outcome) w := by
  obtain ⟨action, haction⟩ : ∃ action, builtin? hooks op x.payload y.payload = some action := by
    rw [← Option.isSome_iff_exists, isSome_builtin?]
    exact Operator.supports_iff_mem_entries.2 h
  obtain ⟨result, hresult, -⟩ := builtin?_eq_conclude haction w
  refine ⟨result, hresult, fun offer => ?_⟩
  have hserved : op.applyBuiltin { hooks with onUnsupported := offer } (some i) (some j) w =
      (do return Except.ok (← withRead (some i) fun _ _ => withRead (some j) fun _ _ => do
        trace operatorLevel (op.tracedAs x.kind y.kind)
        conclude hooks result) : Action σ (Except (Kind × Kind) Outcome)) w := by
    unfold Operator.applyBuiltin withRead
    rw [← lend_map]
    refine lend_congr_at hx fun l hl => ?_
    obtain ⟨n, hy', -⟩ := get?_lent_readable hx hy hl huy
    rw [← lend_map]
    refine lend_congr_at hy' fun m _ => ?_
    refine served_eq haction hresult ?_ offer
    rfl
  rw [Operator.apply]
  simp only [bind, EStateM.bind] at hserved ⊢
  rw [hserved]
  cases withRead (some i) _ w <;> rfl

/-- What an entry of the table comes to, with nothing lent any more: the object or the
    failure that the table makes of the payloads. -/
theorem apply_arrives (h : (op, x.kind, y.kind) ∈ Operator.entries) :
    ∃ result, op.tabled w.settings.textLimit x.payload y.payload = some result ∧
      (op.apply hooks (some i) (some j)).Arrives w
        (fun outcome v => match result with
          | .ok p => outcome = .success w.nextId ∧
            v = (w.traced operatorLevel (op.tracedAs x.kind y.kind)).added p.newborn
          | .error cause => outcome = .failure cause)
        fun _ => match result with
          | .ok p => p.missingPart? ≠ none
          | .error _ => ¬hooks.Returns := by
  obtain ⟨result, hresult, hrun⟩ := apply_of_mem_entries hooks hx hy huy h
  refine ⟨result, hresult, ?_⟩
  have hsame : op.apply hooks (some i) (some j) w = _ := hrun hooks.onUnsupported
  unfold Action.Arrives
  rw [hsame]
  refine Action.Arrives.withOperands hx hy hux huy (fun _ _ _ _ => rfl) fun l m y' _ hl hm hy' => ?_
  refine .bind (.of_ok rfl ?_)
  rw [World.lent_traced, World.lent_traced]
  refine (conclude_arrives hooks result _).mono (fun outcome v hv => ?_) fun v hv => hv
  cases result with
  | error cause => exact hv
  | ok p =>
    obtain ⟨rfl, rfl⟩ := hv
    have hx' : (w.traced operatorLevel (op.tracedAs x.kind y.kind)).heap.get? i = some x := by
      rwa [World.heap_traced]
    have hy'' : ((w.traced operatorLevel (op.tracedAs x.kind y.kind)).lent i x l).heap.get? j =
        some y' := by rwa [← World.lent_traced, World.heap_traced]
    refine ⟨by simp, ?_⟩
    rw [World.endLoan_added hy'' hm, World.endLoan_added hx' hl]

end Dispatch

/-! ## What the host notes -/

/-- An offer as the host is made it: an operator, its operands, and the objects as they
    were then, with the loans that they had. -/
structure Offer where
  op : Operator
  left : Ref
  right : Ref
  heap : Heap

/-- A host that notes each offer that it is made, and nothing else, however its code ends. -/
structure Hooks.Notes (offers : σ → List Offer) (hooks : Hooks σ) : Prop where
  onUnsupported : ∀ hook, hooks.onUnsupported = some hook → ∀ op a b outcome w,
    offers ((hook op a b outcome).after w).host = offers w.host ++ [⟨op, a, b, w.heap⟩]
  onFailure : ∀ hook, hooks.onFailure = some hook → ∀ cause w,
    offers ((hook cause).after w).host = offers w.host

/-- Worlds in which the host has been made the same offers. -/
def SameOffers (offers : σ → List Offer) (w v : World σ) : Prop := offers v.host = offers w.host

theorem sameOffers_steps (offers : σ → List Offer) (writes : Prop) :
    StepRelation writes (SameOffers offers) where
  refl _ := rfl
  trans huv hvw := hvw.trans huv
  loan _ _ _ := rfl
  trace w level message := by rw [SameOffers, World.host_traced]
  allocate _ _ _ := rfl
  change _ _ _ _ _ := rfl

/-- A host that is not asked to serve operators is made no offers. -/
theorem Hooks.Notes.within {offers : σ → List Offer} (h : hooks.Notes offers) :
    Hooks.Within (Action.Leads (SameOffers offers)) { hooks with onUnsupported := none } where
  onFailure := h.onFailure
  onUnsupported := nofun

theorem Hooks.Notes.fail {offers : σ → List Offer} (h : hooks.Notes offers) (cause : Failure)
    (w : World σ) : offers ((ValueEngine.fail hooks cause).after w).host = offers w.host := by
  have hfail : Procedure (Action.Leads (SameOffers offers)) False
      (ValueEngine.fail { hooks with onUnsupported := none } cause) :=
    (fail_values h.within cause).procedure
  exact hfail.leads (sameOffers_steps offers False) (fun hx => hx) w

section Offers

variable {offers : σ → List Offer} (hnotes : hooks.Notes offers) (hx : w.heap.get? i = some x)
  (hy : w.heap.get? j = some y) (hux : x.loan ≠ .exclusive) (huy : y.loan ≠ .exclusive)
include hnotes hx hy hux huy

omit hux in
/-- What the table serves the host is not offered. -/
theorem offers_of_mem_entries (h : (op, x.kind, y.kind) ∈ Operator.entries) :
    offers ((op.apply hooks (some i) (some j)).after w).host = offers w.host := by
  obtain ⟨result, -, hrun⟩ := apply_of_mem_entries hooks hx hy huy h
  have hsame : op.apply hooks (some i) (some j) w =
      op.apply { hooks with onUnsupported := none } (some i) (some j) w :=
    (hrun hooks.onUnsupported).trans (hrun none).symm
  have happly : Procedure (Action.Leads (SameOffers offers)) False
      (op.apply { hooks with onUnsupported := none } (some i) (some j)) :=
    (apply_values hnotes.within op _ _).procedure
  have hleads := happly.leads (sameOffers_steps offers False) (fun hx => hx) w
  rwa [Action.after, ← hsame] at hleads

/-- What the table does not serve the host is offered once, as things were at the call. -/
theorem offers_of_not_mem (h : (op, x.kind, y.kind) ∉ Operator.entries)
    (hoffer : hooks.onUnsupported ≠ none) :
    offers ((op.apply hooks (some i) (some j)).after w).host =
      offers w.host ++ [⟨op, some i, some j, w.heap⟩] := by
  obtain ⟨hook, hhook⟩ := Option.ne_none_iff_exists'.1 hoffer
  have hcall := hnotes.onUnsupported hook hhook op (some i) (some j) .exhausted w
  have hrun := apply_of_offer hx hy hux huy h hhook
  cases hr : hook op (some i) (some j) .exhausted w with
  | error e v =>
    rw [hr] at hrun
    rwa [Action.after_of_error hr, ← Action.after_of_error hrun] at hcall
  | ok a v =>
    obtain ⟨counts, outcome⟩ := a
    rw [hr] at hrun
    rw [Action.after_of_ok hr] at hcall
    cases counts with
    | true => rwa [← Action.after_of_ok hrun] at hcall
    | false =>
      have hafter : (op.apply hooks (some i) (some j)).after w =
          (fail hooks (.unsupportedOperands op x.kind y.kind)).after v := by
        simp only [Action.after, hrun]
      rw [hafter, hnotes.fail, hcall]

end Offers

/-! ## The main result -/

/-- **Who serves an operator, and what comes of it.** Let two operands be such that nobody
    writes them, and any code of a host serve operators and hear of failures. The table
    serves its seven entries: it ends, with both operands lent, with what it makes of their
    payloads, and to the host it makes no difference. All else the host is offered, if it
    serves operators at all, once, with the operands in order and all objects as they were
    at the call. What it says that it served ends as it says; what it turns down, whatever
    it wrote, is a wrong type, which names the operator and the kinds in order. -/
theorem operators_dispatch (hooks : Hooks σ) (op : Operator) (hx : w.heap.get? i = some x)
    (hy : w.heap.get? j = some y) (hux : x.loan ≠ .exclusive) (huy : y.loan ≠ .exclusive) :
    (op.supports x.kind y.kind = true ↔ (op, x.kind, y.kind) ∈ Operator.entries) ∧
    ((op, x.kind, y.kind) ∈ Operator.entries →
      ∃ result, op.tabled w.settings.textLimit x.payload y.payload = some result ∧
        (∀ offer, op.apply { hooks with onUnsupported := offer } (some i) (some j) w =
          (withRead (some i) fun _ _ => withRead (some j) fun _ _ => do
            trace operatorLevel (op.tracedAs x.kind y.kind)
            conclude hooks result : Action σ Outcome) w) ∧
        (op.apply hooks (some i) (some j)).Arrives w
          (fun outcome v => match result with
            | .ok p => outcome = .success w.nextId ∧
              v = (w.traced operatorLevel (op.tracedAs x.kind y.kind)).added p.newborn
            | .error cause => outcome = .failure cause)
          fun _ => match result with
            | .ok p => p.missingPart? ≠ none
            | .error _ => ¬hooks.Returns) ∧
    ((op, x.kind, y.kind) ∉ Operator.entries →
      ∀ cause, cause = Failure.unsupportedOperands op x.kind y.kind →
        (hooks.onUnsupported = none →
          op.apply hooks (some i) (some j) w = fail hooks cause w) ∧
        (∀ hook, hooks.onUnsupported = some hook → op.apply hooks (some i) (some j) w =
          match hook op (some i) (some j) .exhausted w with
          | .ok (true, outcome) v => .ok outcome v
          | .ok (false, _) v => fail hooks cause v
          | .error e v => .error e v) ∧
        (∀ v, (fail hooks cause).Arrives v (fun outcome _ => outcome = .failure cause)
          fun _ => ¬hooks.Returns) ∧
        cause.kind? = some .wrongType ∧
        cause.message = Bytes.ofString "unsupported operand type(s) for " ++ op.symbol ++
          Bytes.ofString ": " ++ Bytes.quoted x.kind.name ++ Bytes.ofString " and " ++
          Bytes.quoted y.kind.name) ∧
    ∀ offers, hooks.Notes offers →
      offers ((op.apply hooks (some i) (some j)).after w).host = offers w.host ++
        if (op, x.kind, y.kind) ∈ Operator.entries ∨ hooks.onUnsupported = none then []
        else [⟨op, some i, some j, w.heap⟩] := by
  refine ⟨Operator.supports_iff_mem_entries, fun h => ?_, ?_, fun offers hnotes => ?_⟩
  · obtain ⟨result, hresult, hrun⟩ := apply_of_mem_entries hooks hx hy huy h
    obtain ⟨result', hresult', harrives⟩ := apply_arrives hooks hx hy hux huy h
    cases hresult.symm.trans hresult'
    exact ⟨result, hresult, hrun, harrives⟩
  · rintro h cause rfl
    exact ⟨apply_of_no_offer hx hy hux huy h, fun hook => apply_of_offer hx hy hux huy h,
      fun v => .fail_or_throws hooks _ v, rfl, rfl⟩
  · by_cases h : (op, x.kind, y.kind) ∈ Operator.entries
    · rw [if_pos (.inl h), List.append_nil]
      exact offers_of_mem_entries hnotes hx hy huy h
    · by_cases hoffer : hooks.onUnsupported = none
      · rw [if_pos (.inr hoffer), List.append_nil, Action.after,
          apply_of_no_offer hx hy hux huy h hoffer]
        exact hnotes.fail _ w
      · rw [if_neg (by simp [h, hoffer])]
        exact offers_of_not_mem hnotes hx hy hux huy h hoffer

/-- A host that notes each offer, makes up a result, and turns the offer down. -/
def declining : Hooks (List Offer) where
  onUnsupported := some fun op a b _ w =>
    .ok (false, .success noneId) { w with host := w.host ++ [⟨op, a, b, w.heap⟩] }

theorem declining_notes : declining.Notes id where
  onUnsupported hook h op a b outcome w := by cases h; rfl
  onFailure := nofun

/-- The difference of None and a type is no number, whatever the host made up, and the host
    was asked once. -/
theorem operators_dispatch_declined :
    let x : Ref := some noneId
    let y : Ref := some Kind.integer.typeId
    let w : World (List Offer) := World.initial []
    let cause := Failure.unsupportedOperands .subtract .noneObject .classObject
    (∃ w', Operator.subtract.apply declining x y w = .ok (.failure cause) w') ∧
      ((Operator.subtract.apply declining x y).after w).host =
        [⟨.subtract, x, y, Heap.initial⟩] := by
  have hdispatch := operators_dispatch (w := World.initial []) declining .subtract
    Heap.get?_initial_noneId (Heap.get?_initial_typeId .integer) (by decide) (by decide)
  obtain ⟨-, -, hopen, hoffers⟩ := hdispatch
  obtain ⟨-, hoffer, hfail, -⟩ := hopen (by decide) _ rfl
  exact ⟨⟨_, hoffer _ rfl⟩, hoffers id declining_notes⟩

end ValueEngine

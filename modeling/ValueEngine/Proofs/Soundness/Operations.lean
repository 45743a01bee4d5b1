/-
  Value engine — every operation keeps a world sound.

  One lemma for each action that an operation is made of. Where aborts are not allowed,
  what only reads secures what it refers to all the same: nothing that it looks at is
  missing or out of reach.

  * `Hooks.Secure`, `Environment.Secure`: host code that keeps a world sound.
  * `Request.secures`: every request, if its operands may stand in slots.
-/
import ValueEngine.Proofs.Equality.Judged
import ValueEngine.Proofs.Loans.Footprint
import ValueEngine.Proofs.Rendering.Text
import ValueEngine.Proofs.Soundness.Actions

namespace ValueEngine

variable {σ α : Type} {L : Licence} {w : World σ} {hooks : Hooks σ}

/-- Hooks that keep a world sound. Where aborts are not allowed there are none. -/
structure Hooks.Secure (L : Licence) (hooks : Hooks σ) : Prop where
  onFailure : ∀ hook, hooks.onFailure = some hook → ∀ cause (w : World σ),
    (∀ i ∈ cause.payload, w.heap.Live i) → Secures L (hook cause) w fun _ => []
  onUnsupported : ∀ hook, hooks.onUnsupported = some hook → ∀ op a b outcome (w : World σ),
    w.heap.Admits L.nulls a → w.heap.Admits L.nulls b → (∀ i ∈ outcome.refs, w.heap.Live i) →
    Secures L (hook op a b outcome) w fun offered => offered.2.refs
  absent : ¬L.aborts → hooks = {}

/-- Host code that keeps a world sound as far as an operation can enter it. -/
structure Environment.Secure (L : Licence) (env : Environment σ) : Prop where
  hooks : env.hooks.Secure L
  natives : ∀ evaluator, env.evaluator = some evaluator → ∀ code args (w : World σ),
    (∀ r ∈ args, w.heap.Admits L.nulls r) →
    Secures L (env.natives code evaluator args) w Outcome.refs
  evaluator : ∀ evaluator, env.evaluator = some evaluator → ∀ f args (w : World σ),
    w.heap.Admits L.nulls f → (∀ r ∈ args, w.heap.Admits L.nulls r) →
    Secures L (evaluator.run f args) w Outcome.refs

theorem Hooks.secure_none (L : Licence) : Hooks.Secure L ({} : Hooks σ) where
  onFailure := nofun
  onUnsupported := nofun
  absent _ := rfl

/-- A licence with aborts besides. -/
def Licence.relaxed (L : Licence) : Licence := ⟨L.nulls, True, fun _ => trivial⟩

theorem World.Sound.relaxed (hw : w.Sound L) : w.Sound L.relaxed :=
  ⟨hw.heap, fun h => (h trivial).elim⟩

theorem Follows.contents {w' : World σ} (h : Follows L w w') (hL : ¬L.aborts) {i : ObjId}
    {p : Payload} (hi : w.heap.contents i = some p) : w'.heap.contents i = some p := by
  obtain ⟨o, ho, rfl⟩ := Option.map_eq_some_iff.1 hi
  obtain ⟨loan, ho'⟩ := h.same hL i o ho
  simp [Heap.contents, ho']

/-- Where aborts are not allowed, a sequence of what may stand in slots lacks nothing. -/
theorem missingPart?_of_admits {elements : List Ref} {whole : List Ref → Payload}
    (hwhole : whole = .list ∨ whole = .tuple)
    (he : ∀ r ∈ elements, w.heap.Admits L.nulls r) :
    L.aborts ∨ (whole elements).missingPart? = none := by
  refine Classical.or_iff_not_imp_left.2 fun hL => ?_
  have hsome : elements.any Option.isNone = false := by
    rw [List.any_eq_false]
    intro r hr
    obtain ⟨i, rfl, -⟩ := (he r hr).live hL
    exact Bool.false_ne_true
  rcases hwhole with rfl | rfl <;> simp [Payload.missingPart?, hsome]

/-- The references in a verdict. -/
def Verdict.refs : Verdict → List ObjId
  | failed cause => cause.payload.toList
  | _ => []

theorem Verdict.refs_ofBool {b : Bool} {P : ObjId → Prop} : ∀ i ∈ (ofBool b).refs, P i := by
  cases b <;> nofun

/-! ## Failing -/

section Failing

variable (hh : hooks.Secure L)
include hh

theorem report_secures {cause : Failure} (hc : ∀ i ∈ cause.payload, w.heap.Live i) :
    Secures L (report hooks cause) w fun _ => [] := by
  refine (Secures.trace _ _).bind fun _ v hv _ => ?_
  split
  · rename_i hook hhook
    exact hh.onFailure hook hhook cause v fun i hi => hv.live (hc i hi)
  · exact .pure_nil _

theorem fail_secures_of_live {cause : Failure} (hc : ∀ i ∈ cause.payload, w.heap.Live i) :
    Secures L (fail hooks cause) w Outcome.refs :=
  (report_secures hh hc).bind fun _ _ hv _ => .pure fun i hi =>
    hv.live (hc i (Option.mem_toList.1 hi))

theorem fail_secures {cause : Failure} (hc : cause.payload = none) :
    Secures L (fail hooks cause) w Outcome.refs := fail_secures_of_live hh (by simp [hc])

/-! ## Arithmetic -/

theorem integerOutcome_secures (op : Operator) :
    ∀ value, Secures L (integerOutcome hooks op value) w Outcome.refs
  | some _ => .freshValue_plain rfl rfl
  | none => fail_secures hh rfl

theorem quotientOutcome_secures (x y : Int32) :
    Secures L (quotientOutcome hooks x y) w Outcome.refs := by
  unfold quotientOutcome
  split
  · exact fail_secures hh rfl
  · rename_i hy
    rw [Checked.divide_of_ne_zero hy]
    exact (Secures.pure_nil _).bind fun value _ _ _ => integerOutcome_secures hh _ value

theorem joinTexts_secures (s t : Bytes) : Secures L (joinTexts hooks s t) w Outcome.refs := by
  refine .settings_bind ?_
  split
  · exact fail_secures hh rfl
  · exact .freshValue_plain rfl rfl

theorem repeatText_secures (text : Bytes) (count : Int32) :
    Secures L (repeatText hooks text count) w Outcome.refs := by
  refine .settings_bind ?_
  split
  · exact .freshValue_plain rfl rfl
  · split
    · exact fail_secures hh rfl
    · exact .freshValue_plain rfl rfl

theorem builtin_secures {op : Operator} {p q : Payload} {action : Action σ Outcome} {i j : ObjId}
    (hp : p.Fits L.nulls w.heap i) (hq : q.Fits L.nulls w.heap j)
    (h : builtin? hooks op p q = some action) : Secures L action w Outcome.refs := by
  unfold builtin? at h
  split at h <;> cases h
  · exact integerOutcome_secures hh _ _
  · exact joinTexts_secures hh _ _
  · have hboth : ∀ r ∈ _ ++ _, w.heap.Admits L.nulls r := fun r hr =>
      (List.mem_append.1 hr).elim (hp.slots r) (hq.slots r)
    exact .freshValue (.list hboth) (missingPart?_of_admits (.inl rfl) hboth)
  · exact integerOutcome_secures hh _ _
  · exact integerOutcome_secures hh _ _
  · exact repeatText_secures hh _ _
  · exact quotientOutcome_secures hh _ _

theorem applyBuiltin_secures (op : Operator) {a b : Ref} (ha : w.heap.Admits L.nulls a)
    (hb : w.heap.Admits L.nulls b) : Secures L (op.applyBuiltin hooks a b) w fun
      | .ok outcome => outcome.refs
      | .error _ => [] := by
  refine .withRead (.inr ha) fun i x v hv _ _ hx => ?_
  refine .withRead (.inr (hv.admits hb)) fun j y u hu _ _ hy => ?_
  split
  · rename_i action haction
    refine (Secures.trace _ _).bind fun _ t ht _ => ?_
    exact (builtin_secures hh (hx.payload.mono (hu.trans ht).survives)
      (hy.payload.mono ht.survives) haction).bind fun _ _ _ hrefs => .pure hrefs
  · exact .pure_of_nil rfl

theorem applyUnsupported_secures (op : Operator) {a b : Ref} (left right : Kind)
    (ha : w.heap.Admits L.nulls a) (hb : w.heap.Admits L.nulls b) :
    Secures L (op.applyUnsupported hooks a b left right) w Outcome.refs := by
  unfold Operator.applyUnsupported
  split
  · rename_i hook hhook
    refine (hh.onUnsupported hook hhook op a b .exhausted w ha hb nofun).bind
      fun offered v _ hrefs => ?_
    dsimp only
    split
    · exact .pure hrefs
    · exact fail_secures hh rfl
  · exact fail_secures hh rfl

theorem apply_secures (op : Operator) {a b : Ref} (ha : w.heap.Admits L.nulls a)
    (hb : w.heap.Admits L.nulls b) : Secures L (op.apply hooks a b) w Outcome.refs := by
  refine (applyBuiltin_secures hh op ha hb).bind fun served v hv hrefs => ?_
  split
  · exact .pure hrefs
  · exact applyUnsupported_secures hh op _ _ (hv.admits ha) (hv.admits hb)

/-! ## Comparison -/

theorem refuse_secures (a b : Object) : Secures L (refuse hooks a b) w Verdict.refs :=
  (report_secures hh (by simp [Failure.payload])).bind_nil fun _ _ _ => .pure_of_nil rfl

omit hh in
theorem allEqual_secures {test : Ref → Ref → Comparing σ Verdict}
    (ht : ∀ l r pairs (w : World σ), Secures L (test l r pairs) w fun p => p.1.refs)
    (ls rs : List Ref) (pairs : List (ObjId × ObjId)) :
    Secures L (allEqual test ls rs pairs) w fun p => p.1.refs := by
  induction ls generalizing rs pairs w with
  | nil => exact .pure_of_nil rfl
  | cons l ls ih =>
    cases rs with
    | nil => exact .pure_of_nil rfl
    | cons r rs =>
      refine (ht l r pairs w).bind fun p v _ hrefs => ?_
      obtain ⟨verdict, pairs⟩ := p
      cases verdict with
      | equal => exact ih rs pairs
      | unequal => exact .pure_of_nil rfl
      | failed cause => exact .pure hrefs

/-- A comparison may abort: its budget is not looked at here. -/
theorem equality_secures (hL : L.aborts) (depth : Nat) (i : ObjId) (a : Object) (j : ObjId)
    (b : Object) (pairs : List (ObjId × ObjId)) :
    Secures L (equality hooks depth i a j b pairs) w fun p => p.1.refs := by
  induction depth generalizing i a j b pairs w with
  | zero => exact .abort hL _
  | succ depth ih =>
    have hrefuse : ∀ pairs, Secures L (do return (← refuse hooks a b, pairs)) w
        fun p : Verdict × List (ObjId × ObjId) => p.1.refs := fun pairs =>
      (refuse_secures hh a b).bind fun _ _ _ hrefs => .pure hrefs
    simp only [equality]
    split
    · exact hrefuse pairs
    split
    · exact .pure_of_nil rfl
    split
    · exact .pure Verdict.refs_ofBool
    · exact .pure Verdict.refs_ofBool
    · split
      · exact .pure_of_nil rfl
      split
      · exact .pure_of_nil rfl
      refine (allEqual_secures (fun l r pairs w => ?_) _ _ _).bind fun _ _ _ hrefs => .pure hrefs
      exact .withRead (.inl hL) fun i a _ _ _ _ _ => .withRead (.inl hL) fun j b _ _ _ _ _ =>
        ih i a j b pairs
    · exact hrefuse pairs

theorem judge_secures {i j : ObjId} {a b : Object}
    (ha : ¬L.aborts → w.heap.contents i = some a.payload)
    (hb : ¬L.aborts → w.heap.contents j = some b.payload) :
    Secures L (judge hooks i a j b) w Verdict.refs := by
  by_cases hL : L.aborts
  · exact .heap_bind ((equality_secures hh hL _ i a j b []).bind fun _ _ _ hrefs => .pure hrefs)
  -- nothing is missing, so the test comes to a verdict, and it only reads
  cases hh.absent hL
  intro hw
  have hfilled : w.heap.contents.Filled :=
    (hw.heap.mono_nulls fun hn => hL (L.aborts_of_nulls hn)).filled
  have hreturns : Hooks.Returns ({} : Hooks σ) := nofun
  obtain ⟨verdict, v, hrun, -⟩ := settles_judge hfilled hreturns (hw.shows hL) (ha hL) (hb hL)
  have hrelaxed : Secures L.relaxed (judge {} i a j b) w Verdict.refs :=
    .heap_bind ((equality_secures (Hooks.secure_none _) trivial _ i a j b []).bind
      fun _ _ _ hrefs => .pure hrefs)
  have hreads : Procedure (fun _ => False) False (judge ({} : Hooks σ) i a j b) :=
    (judge_values (Hooks.within_none _) i a j b).procedure
  obtain ⟨hv, hfollows, hrefs⟩ := (hrelaxed hw.relaxed).1 verdict v hrun
  have hquiet := (hreads.quiet False.elim w (hw.unwritten hL)).2
  have hsame := hreads.leads sameContents_steps False.elim w
  rw [Action.after_of_ok hrun] at hquiet hsame
  refine ⟨fun a w' h => ?_, fun e w' h => ?_⟩ <;> rw [hrun] at h <;> cases h
  exact ⟨⟨hv.heap, fun _ => hquiet⟩, ⟨hfollows.survives, fun _ => hsame⟩, hrefs⟩

omit hh in
theorem verdict_outcome_secures (answer : Bool → Bool) : ∀ verdict : Verdict,
    (∀ i ∈ verdict.refs, w.heap.Live i) → Secures L (verdict.outcome answer) w Outcome.refs
  | .equal, _ => .freshValue_plain rfl rfl
  | .unequal, _ => .freshValue_plain rfl rfl
  | .failed _, h => .pure h

theorem judged_secures (answer : Bool → Bool) {a b : Ref} (ha : w.heap.Admits L.nulls a)
    (hb : w.heap.Admits L.nulls b) :
    Secures L (withRead a fun i x => withRead b fun j y => do
      (← judge hooks i x j y).outcome answer) w Outcome.refs := by
  refine .withRead (.inr ha) fun i x v hv _ hx _ => ?_
  refine .withRead (.inr (hv.admits hb)) fun j y u hu _ hy _ => ?_
  refine (judge_secures hh (fun hL => ?_) fun _ => Heap.contents_of_get? hy).bind
    fun verdict _ _ hrefs => verdict_outcome_secures answer verdict hrefs
  exact hu.contents hL (Heap.contents_of_get? hx)

theorem orderOf_secures (a b : Object) : Secures L (orderOf hooks a b) w fun
    | .ok _ => []
    | .error cause => cause.payload.toList := by
  unfold orderOf
  split
  · exact .pure_of_nil rfl
  · exact (report_secures hh (by simp [Failure.payload])).bind_nil fun _ _ _ => .pure_of_nil rfl

theorem orderOutcome_secures {answer : Ordering → Payload}
    (ha : ∀ order, (answer order).slots = [] ∧ (answer order).missingPart? = none) {a b : Ref}
    (hra : w.heap.Admits L.nulls a) (hrb : w.heap.Admits L.nulls b) :
    Secures L (orderOutcome hooks answer a b) w Outcome.refs := by
  refine Secures.bind (.withRead (.inr hra) fun _ x v hv _ _ _ =>
    .withRead (.inr (hv.admits hrb)) fun _ y _ _ _ _ _ => orderOf_secures hh x y)
    fun order v _ hrefs => ?_
  split
  · exact .freshValue_plain (ha _).1 (ha _).2
  · exact .pure hrefs

/-! ## Collections -/

omit hh in
theorem mem_of_mem_select? {bounds : SliceBounds} {xs selected : List α}
    (h : bounds.select? xs = some selected) {x : α} (hx : x ∈ selected) : x ∈ xs := by
  obtain ⟨places, -, rfl⟩ := Option.map_eq_some_iff.1 h
  obtain ⟨place, -, hplace⟩ := List.mem_filterMap.1 hx
  exact List.mem_of_getElem? hplace

theorem sequenceItem_secures {whole : List Ref → Payload}
    (hwhole : whole = .list ∨ whole = .tuple) {elements : List Ref}
    (he : ∀ r ∈ elements, w.heap.Admits L.nulls r) (key : Payload) :
    Secures L (sequenceItem hooks whole elements key) w Outcome.refs := by
  unfold sequenceItem
  split
  · split
    · rename_i place hplace
      have hlt := position?_lt hplace
      rw [List.getElem?_eq_getElem hlt]
      exact .succeed (he _ (List.getElem_mem hlt))
    · exact fail_secures hh rfl
  · split
    · rename_i selected hselected
      have hs : ∀ r ∈ selected, w.heap.Admits L.nulls r := fun r hr =>
        he r (mem_of_mem_select? hselected hr)
      refine .freshValue ?_ (missingPart?_of_admits hwhole hs)
      rcases hwhole with rfl | rfl
      · exact .list hs
      · exact .tuple hs
    · exact fail_secures hh rfl
  · exact fail_secures hh rfl

theorem textItem_secures (text : Bytes) (key : Payload) :
    Secures L (textItem hooks text key) w Outcome.refs := by
  unfold textItem
  split
  · split
    · exact .freshValue_plain rfl rfl
    · exact fail_secures hh rfl
  · split
    · exact .freshValue_plain rfl rfl
    · exact fail_secures hh rfl
  · exact fail_secures hh rfl

theorem entryItem_secures {entries : Table Ref}
    (he : ∀ r ∈ entries.values, w.heap.Admits L.nulls r) (key : Payload) :
    Secures L (entryItem hooks entries key) w Outcome.refs := by
  unfold entryItem
  split
  · split
    · rename_i value hvalue
      exact .succeed (he value (Table.mem_values_of_find? hvalue))
    · exact fail_secures hh rfl
  · exact fail_secures hh rfl

theorem itemOf_secures {collection : Payload}
    (hc : ∀ r ∈ collection.slots, w.heap.Admits L.nulls r) (key : Payload) :
    Secures L (itemOf hooks collection key) w Outcome.refs := by
  unfold itemOf
  split
  · exact sequenceItem_secures hh (.inl rfl) hc key
  · exact sequenceItem_secures hh (.inr rfl) hc key
  · exact textItem_secures hh _ key
  · exact entryItem_secures hh hc key
  · exact fail_secures hh rfl

theorem item_secures {a key : Ref} (ha : w.heap.Admits L.nulls a)
    (hkey : w.heap.Admits L.nulls key) : Secures L (Ref.item hooks a key) w Outcome.refs := by
  refine .withRead (.inr ha) fun _ x v hv _ _ hx => ?_
  refine .withRead (.inr (hv.admits hkey)) fun _ y u hu _ _ _ => ?_
  exact itemOf_secures hh (fun r hr => hu.admits (hx.payload.slots r hr)) y.payload

omit hh in
theorem Payload.Fits.stored? {h : Heap} {i : ObjId} {p key q : Payload} {value : Ref}
    (hp : p.Fits L.nulls h i) (hv : h.Admits L.nulls value) (hq : p.stored? key value = .ok q) :
    q.Fits L.nulls h i := by
  unfold Payload.stored? at hq
  split at hq
  · split at hq <;> cases hq
    refine .list fun r hr => ?_
    rcases List.mem_or_eq_of_mem_set hr with hr | rfl
    · exact hp.slots r hr
    · exact hv
  · cases hq
  · cases hq
    refine .dict (fun r hr => ?_) ((hp.ordered _ rfl).insert _ _)
    rcases Table.mem_values_of_insert hr with rfl | hr
    · exact hv
    · exact hp.slots r hr
  all_goals cases hq

omit hh in
theorem Payload.Fits.appended? {h : Heap} {i : ObjId} {p q : Payload} {value : Ref}
    (hp : p.Fits L.nulls h i) (hv : h.Admits L.nulls value) (hq : p.appended? value = .ok q) :
    q.Fits L.nulls h i := by
  cases p <;> cases hq
  refine .list fun r hr => ?_
  rcases List.mem_append.1 hr with hr | hr
  · exact hp.slots r hr
  · rw [List.mem_singleton.1 hr]
    exact hv

theorem replaceOrFail_secures (hL : L.aborts) {i : ObjId} : ∀ {payload : Except Failure Payload},
    (∀ q, payload = .ok q → q.Fits L.nulls w.heap i) → (∀ cause, payload = .error cause →
      cause.payload = none) → Secures L (replaceOrFail hooks i payload) w Outcome.refs
  | .ok q, hq, _ => (Secures.change hL fun _ _ ho => ho.setPayload (hq q rfl)).bind
      fun _ _ _ _ => .succeedNone
  | .error _, _, hc => fail_secures hh (hc _ rfl)

omit hh in
theorem payload_of_stored? {p key : Payload} {value : Ref} {cause : Failure}
    (h : p.stored? key value = .error cause) : cause.payload = none := by
  unfold Payload.stored? at h
  split at h
  · split at h <;> cases h
    rfl
  all_goals cases h
  all_goals rfl

omit hh in
theorem payload_of_appended? {p : Payload} {value : Ref} {cause : Failure}
    (h : p.appended? value = .error cause) : cause.payload = none := by
  cases p <;> cases h <;> rfl

theorem store_secures (hL : L.aborts) {a key value : Ref} (hv : w.heap.Admits L.nulls value) :
    Secures L (Ref.store hooks a key value) w Outcome.refs := by
  have hbody : Secures L (do
      let key ← peek key
      withWrite a fun i collection =>
        replaceOrFail hooks i (collection.payload.stored? key.payload value)) w Outcome.refs := by
    refine .peek_bind (.inl hL) fun _ k v hv' _ _ _ => ?_
    refine .withWrite hL fun i o u hu _ _ ho => ?_
    exact replaceOrFail_secures hh hL
      (fun q hq => ho.payload.stored? (hu.admits (hv'.admits hv)) hq) fun _ => payload_of_stored?
  simp only [Ref.store]
  split
  · exact .abort_bind hL _ _
  · exact hbody

theorem lengthOutcome_secures (length : Nat) :
    Secures L (lengthOutcome hooks length) w Outcome.refs := by
  unfold lengthOutcome
  split
  · exact .freshValue_plain rfl rfl
  · exact fail_secures hh rfl

theorem length_secures {a : Ref} (ha : w.heap.Admits L.nulls a) :
    Secures L (Ref.length hooks a) w Outcome.refs := by
  refine .withRead (.inr ha) fun _ _ _ _ _ _ _ => ?_
  split
  · exact lengthOutcome_secures hh _
  · exact fail_secures hh rfl

theorem append_secures (hL : L.aborts) {a value : Ref} (hv : w.heap.Admits L.nulls value) :
    Secures L (Ref.append hooks a value) w Outcome.refs := by
  have hbody : Secures L (withWrite a fun i collection =>
      replaceOrFail hooks i (collection.payload.appended? value)) w Outcome.refs :=
    .withWrite hL fun i o v hv' _ _ ho => replaceOrFail_secures hh hL
      (fun q hq => ho.payload.appended? (hv'.admits hv) hq) fun _ => payload_of_appended?
  simp only [Ref.append]
  split
  · exact .abort_bind hL _ _
  · exact hbody

theorem matchElement_secures {j : ObjId} {needle : Object} {element : Ref}
    (he : w.heap.Admits L.nulls element)
    (hneedle : ¬L.aborts → w.heap.contents j = some needle.payload) :
    Secures L (matchElement hooks j needle element) w Verdict.refs := by
  unfold matchElement
  split
  · exact .pure_of_nil rfl
  refine .withRead (.inr he) fun i candidate v hv _ hc _ => ?_
  split
  · exact .pure_of_nil rfl
  · exact judge_secures hh (fun _ => Heap.contents_of_get? hc)
      fun hL => hv.contents hL (hneedle hL)

theorem scan_secures {j : ObjId} {needle : Object} {elements : List Ref}
    (he : ∀ r ∈ elements, w.heap.Admits L.nulls r)
    (hneedle : ¬L.aborts → w.heap.contents j = some needle.payload) :
    Secures L (scan hooks j needle elements) w Outcome.refs := by
  induction elements generalizing w with
  | nil => exact .freshValue_plain rfl rfl
  | cons element rest ih =>
    refine (matchElement_secures hh (he element List.mem_cons_self) hneedle).bind
      fun verdict v hv hrefs => ?_
    cases verdict with
    | equal => exact .freshValue_plain rfl rfl
    | unequal =>
      exact ih (fun r hr => hv.admits (he r (List.mem_cons_of_mem _ hr)))
        fun hL => hv.contents hL (hneedle hL)
    | failed cause => exact .pure hrefs

theorem membership_secures {collection : Payload} {j : ObjId} {needle : Object}
    (hc : ∀ r ∈ collection.slots, w.heap.Admits L.nulls r)
    (hneedle : ¬L.aborts → w.heap.contents j = some needle.payload) :
    Secures L (membership hooks collection j needle) w Outcome.refs := by
  unfold membership
  split
  · exact scan_secures hh hc hneedle
  · exact scan_secures hh hc hneedle
  · exact .freshValue_plain rfl rfl
  · exact fail_secures hh rfl
  · exact .freshValue_plain rfl rfl
  · exact fail_secures hh rfl
  · exact fail_secures hh rfl

theorem contains_secures {a value : Ref} (ha : w.heap.Admits L.nulls a)
    (hv : w.heap.Admits L.nulls value) : Secures L (Ref.contains hooks a value) w Outcome.refs := by
  refine .withRead (.inr ha) fun _ x v hv' _ _ hx => ?_
  refine .withRead (.inr (hv'.admits hv)) fun j y u hu _ hy _ => ?_
  exact membership_secures hh (fun r hr => hu.admits (hx.payload.slots r hr))
    fun _ => Heap.contents_of_get? hy

/-! ## Iteration -/

theorem iterate_secures {target : Ref} (ht : w.heap.Admits L.nulls target) :
    Secures L (Ref.iterate hooks target) w Outcome.refs := by
  refine .peek_bind (.inr ht) fun i o v _ hi hlive _ => ?_
  subst hi
  split
  · refine .freshValue ⟨fun r hr => ?_, fun cursor t hp ht => ?_, nofun⟩ (.inr rfl)
    · rw [List.mem_singleton.1 hr]
      exact hlive
    · cases hp
      cases ht
      exact hlive.lt_size
  · exact fail_secures hh rfl

omit hh in
theorem slots_movedTo (moved : Cursor) (p : Payload) : (p.movedTo moved).slots = p.slots := by
  cases p <;> rfl

omit hh in
/-- An iterator after a step has the target that it had. -/
theorem Payload.Fits.movedTo {h : Heap} {i : ObjId} {p : Payload} (hp : p.Fits L.nulls h i)
    (moved : Cursor) : (p.movedTo moved).Fits L.nulls h i where
  slots := by
    rw [slots_movedTo]
    exact hp.slots
  target cursor t hm ht := by
    cases p <;> cases hm
    exact hp.target _ t rfl ht
  ordered entries hm := by
    cases p <;> cases hm
    exact hp.ordered _ rfl

omit hh in
theorem stepOutcome_secures : ∀ {element : Option Ref},
    (∀ r, element = some r → w.heap.Admits L.nulls r) →
      Secures L (stepOutcome element : Action σ Outcome) w Outcome.refs
  | some _, he => .succeed (he _ rfl)
  | none, _ => .pure_of_nil rfl

theorem next_secures (hL : L.aborts) (a : Ref) : Secures L (Ref.next hooks a) w Outcome.refs := by
  refine .withWrite hL fun i o v _ _ _ _ => ?_
  split
  · refine .withRead (.inl hL) fun _ target u _ _ _ htarget => ?_
    split
    · rename_i elements helements
      have he : ∀ r ∈ elements, u.heap.Admits L.nulls r := by
        have hslots := htarget.payload.slots
        unfold Payload.elements? at helements
        split at helements <;> cases helements
        all_goals rename_i hp; rw [hp] at hslots; exact hslots
      refine (Secures.change hL fun _ _ ho => ho.setPayload (ho.payload.movedTo _)).bind
        fun _ t ht _ => ?_
      exact stepOutcome_secures fun r hr => ht.admits (he r (Cursor.mem_of_next hr))
    · exact fail_secures hh rfl
  · exact fail_secures hh rfl

/-! ## Attributes -/

omit hh in
/-- Types are older, so a look-up from an object takes fewer links than there are older
    objects and one more. -/
theorem lookup_secures (name : Bytes) (links : Nat) {r : Ref}
    (hr : ∀ i, r = some i → w.heap.Live i ∧ i.index < links) :
    Secures L (lookup name links r : Action σ Ref) w Option.toList := by
  induction links generalizing r w with
  | zero =>
    cases r with
    | none => exact .pure_of_nil rfl
    | some i => exact absurd (hr i rfl).2 (Nat.not_lt_zero _)
  | succ links ih =>
    cases r with
    | none => exact .pure_of_nil rfl
    | some i =>
      obtain ⟨hlive, hlt⟩ := hr i rfl
      refine .peek_bind (.inr hlive) fun j o v _ hj _ ho => ?_
      cases hj
      split
      · rename_i value hvalue
        refine .pure fun k hk => ?_
        cases List.mem_singleton.1 hk
        exact ho.attributes value (Table.mem_values_of_find? hvalue)
      · refine ih fun t ht => ?_
        obtain ⟨htype, holder⟩ := ho.type t ht
        exact ⟨htype, by omega⟩

omit hh in
theorem binding_secures {a : Ref} (ha : w.heap.Admits True a) (name : Bytes) :
    Secures L (Ref.binding a name : Action σ Ref) w Option.toList := by
  refine .heap_bind (lookup_secures name _ fun i hi => ?_)
  subst hi
  exact ⟨ha, Heap.Live.lt_size ha⟩

omit hh in
theorem Heap.Admits.weaken {h : Heap} {nulls : Prop} {r : Ref} (hr : h.Admits nulls r) :
    h.Admits True r := by
  cases r with
  | none => trivial
  | some i => exact hr

theorem readAttribute_secures {a : Ref} (ha : w.heap.Admits L.nulls a) (name : Bytes) :
    Secures L (Ref.readAttribute hooks a name) w Outcome.refs := by
  refine (binding_secures ha.weaken name).bind fun found v hv hrefs => ?_
  split
  · exact .pure hrefs
  · exact .peek_bind (.inr (hv.admits ha)) fun _ _ _ _ _ _ _ => fail_secures hh rfl

omit hh in
theorem knows_secures {a : Ref} (ha : w.heap.Admits L.nulls a) (name : Bytes) :
    Secures L (Ref.knows a name : Action σ Bool) w fun _ => [] :=
  (binding_secures ha.weaken name).bind fun _ _ _ _ => .pure_nil _

omit hh in
theorem Object.Fits.bind {h : Heap} {i value : ObjId} {o : Object} (ho : o.Fits L.nulls h i)
    (hv : h.Live value) (name : Bytes) :
    Object.Fits L.nulls h i { o with attributes := o.attributes.insert name value } where
  payload := ho.payload
  attributes j hj := (Table.mem_values_of_insert hj).elim (fun e => e ▸ hv) (ho.attributes j)
  named := ho.named.insert name value
  type := ho.type

omit hh in
theorem Object.Fits.unbind {h : Heap} {i : ObjId} {o : Object} (ho : o.Fits L.nulls h i)
    (name : Bytes) :
    Object.Fits L.nulls h i { o with attributes := o.attributes.erase name } where
  payload := ho.payload
  attributes j hj := ho.attributes j (Table.mem_values_of_erase hj)
  named := ho.named.erase name
  type := ho.type

omit hh in
theorem bindOwn_secures (hL : L.aborts) (i : ObjId) (name : Bytes) : ∀ {value : Ref},
    w.heap.Admits L.nulls value → Secures L (bindOwn i name value : Action σ Unit) w fun _ => []
  | some _, hv => .change hL fun _ _ ho => ho.bind hv name
  | none, _ => .abort hL _

omit hh in
theorem bindAttribute_secures (hL : L.aborts) (a : Ref) (name : Bytes) {value : Ref}
    (hv : w.heap.Admits L.nulls value) :
    Secures L (Ref.bindAttribute a name value : Action σ Unit) w fun _ => [] :=
  .withWrite hL fun i _ _ hv' _ _ _ => bindOwn_secures hL i name (hv'.admits hv)

omit hh in
theorem unbindOwn_secures (hL : L.aborts) (i : ObjId) (name : Bytes) :
    Secures L (unbindOwn i name : Action σ Unit) w fun _ => [] :=
  .change hL fun _ _ ho => ho.unbind name

theorem unbindAttribute_secures (hL : L.aborts) (a : Ref) (name : Bytes) :
    Secures L (Ref.unbindAttribute hooks a name) w Outcome.refs := by
  refine .bind_nil (.withWrite hL fun i o v _ _ _ _ => ?_) fun missing v _ => ?_
  · split
    · exact (unbindOwn_secures hL i name).bind_nil fun _ _ _ => .pure_nil _
    · exact .pure_nil _
  · split
    · exact .succeedNone
    · exact fail_secures hh rfl

/-! ## Texts -/

omit hh in
theorem mapM_secures {S β : Type} {f : α → StateT S (Action σ) β}
    (hf : ∀ a s (w : World σ), Secures L (f a s) w fun _ => []) (xs : List α) (s : S) :
    Secures L (xs.mapM f s) w fun _ => [] := by
  induction xs generalizing s w with
  | nil =>
    rw [List.mapM_nil]
    exact .pure_nil _
  | cons x xs ih =>
    rw [List.mapM_cons]
    exact (hf x s w).bind fun p _ _ _ => (ih p.2).bind_nil fun _ _ _ => .pure_nil _

omit hh in
theorem payload_render_secures {part : Ref → Rendering σ Bytes}
    (hp : ∀ r path (w : World σ), Secures L (part r path) w fun _ => []) (p : Payload)
    (path : List ObjId) : Secures L (p.render part path) w fun _ => [] := by
  cases p with
  | list elements => exact (mapM_secures hp elements path).bind_nil fun _ _ _ => .pure_nil _
  | tuple elements => exact (mapM_secures hp elements path).bind_nil fun _ _ _ => .pure_nil _
  | dict entries =>
    refine (mapM_secures (fun e path w => ?_) entries path).bind_nil fun _ _ _ => .pure_nil _
    exact (hp e.2 path w).bind_nil fun _ _ _ => .pure_nil _
  | iterator cursor => exact (hp cursor.target path w).bind_nil fun _ _ _ => .pure_nil _
  | _ => exact .pure_nil _

omit hh in
/-- A rendering may abort: its budget is not looked at here. -/
theorem render_secures (hL : L.aborts) (depth : Nat) (i : ObjId) (o : Object) (path : List ObjId) :
    Secures L (render depth i o path : Action σ (Bytes × List ObjId)) w fun _ => [] := by
  induction depth generalizing i o path w with
  | zero => exact .abort hL _
  | succ depth ih =>
    simp only [render]
    split
    · exact .pure_nil _
    refine (payload_render_secures (fun r path w => ?_) _ _).bind_nil fun _ _ _ => .pure_nil _
    exact .withRead (.inl hL) fun j p _ _ _ _ _ => ih j p path

omit hh in
theorem textOf_secures {i : ObjId} {o : Object}
    (ho : ¬L.aborts → w.heap.contents i = some o.payload) :
    Secures L (textOf i o : Action σ Bytes) w fun _ => [] := by
  by_cases hL : L.aborts
  · exact .heap_bind ((render_secures hL _ i o []).bind_nil fun _ _ _ => .pure_nil _)
  -- nothing is missing, so there is a text, and nothing is changed
  intro hw
  have hsound := hw.heap.mono_nulls fun hn => hL (L.aborts_of_nulls hn)
  have hshows : w.Shows w.heap.contents := ⟨rfl, hw.unwritten hL⟩
  have hrun := Heap.textOf_eq_depict hsound.ordered hshows.looks
    (fun k _ => hsound.filled.lends k) (ho hL)
  refine ⟨fun a w' h => ?_, fun e w' h => ?_⟩ <;> rw [hrun] at h <;> cases h
  exact ⟨hw, .refl w, by simp⟩

omit hh in
theorem text_secures {r : Ref} (hr : w.heap.Admits L.nulls r) :
    Secures L (Ref.text r : Action σ Bytes) w fun _ => [] := by
  unfold Ref.text
  split
  · exact .pure_nil _
  · exact .withRead (.inr hr) fun _ _ _ _ _ ho _ => textOf_secures fun _ =>
      Heap.contents_of_get? ho

omit hh in
theorem truth_secures {a : Ref} (ha : w.heap.Admits L.nulls a) :
    Secures L (Ref.truth a : Action σ Bool) w fun _ => [] :=
  .withRead (.inr ha) fun _ _ _ _ _ _ _ => .pure_nil _

/-! ## Calls -/

theorem callTarget_secures {f : Ref} (hf : w.heap.Admits L.nulls f) :
    Secures L (callTarget hooks f) w fun
      | .nowhere outcome => outcome.refs
      | _ => [] := by
  refine .withRead (.inr hf) fun _ o _ _ _ _ _ => ?_
  split
  · exact .pure_of_nil rfl
  · exact .pure_of_nil rfl
  · exact .pure_of_nil rfl
  · exact (fail_secures hh rfl).bind fun _ _ _ hrefs => .pure hrefs

end Failing

theorem call_secures {env : Environment σ} (henv : env.Secure L) (hL : L.aborts) {f : Ref}
    {args : List Ref} (hf : w.heap.Admits L.nulls f) (hargs : ∀ r ∈ args, w.heap.Admits L.nulls r) :
    Secures L (Ref.call env.hooks env.natives env.evaluator f args) w Outcome.refs := by
  cases he : env.evaluator with
  | none => exact .abort hL _
  | some evaluator =>
    refine (callTarget_secures henv.hooks hf).bind fun target v hv hrefs => ?_
    have hargs' : ∀ r ∈ args, v.heap.Admits L.nulls r := fun r hr => hv.admits (hargs r hr)
    cases target with
    | native code => exact henv.natives evaluator he code args v hargs'
    | evaluator => exact henv.evaluator evaluator he f args v (hv.admits hf) hargs'
    | nowhere outcome => exact .pure hrefs

/-! ## Requests -/

/-- The references in a response. -/
def Response.refs : Response → List ObjId
  | .outcome result => result.refs
  | _ => []

theorem binary_secures {verb : Binary} (hh : hooks.Secure L) (hL : L.aborts ∨ verb ≠ .append)
    {a b : Ref} (ha : w.heap.Admits L.nulls a) (hb : w.heap.Admits L.nulls b) :
    Secures L (verb.run hooks a b) w Outcome.refs := by
  cases verb with
  | add | subtract | multiply | divide => exact apply_secures hh _ ha hb
  | equal | different => exact judged_secures hh _ ha hb
  | below | atMost | above | atLeast | rank =>
    exact orderOutcome_secures hh (fun _ => ⟨rfl, rfl⟩) ha hb
  | item => exact item_secures hh ha hb
  | append => exact append_secures hh (hL.resolve_right fun h => h rfl) hb
  | contains => exact contains_secures hh ha hb

theorem unary_secures {verb : Unary} (hh : hooks.Secure L) (hL : L.aborts ∨ verb ≠ .next)
    {a : Ref} (ha : w.heap.Admits L.nulls a) : Secures L (verb.run hooks a) w Outcome.refs := by
  cases verb with
  | length => exact length_secures hh ha
  | iterate => exact iterate_secures hh ha
  | next => exact next_secures hh (hL.resolve_right fun h => h rfl) a

/-- **Every request keeps a world sound**, and what it gives is there. Without aborts a
    request that only reads comes to a result. -/
theorem Request.secures {env : Environment σ} (henv : env.Secure L) {request : Request}
    (hL : L.aborts ∨ request.Reads) (hops : ∀ r ∈ request.operands, w.heap.Admits L.nulls r) :
    Secures L (request.run env) w Response.refs := by
  have houtcome : ∀ {x : Action σ Outcome}, Secures L x w Outcome.refs →
      Secures L (do return Response.outcome (← x)) w Response.refs := fun hx =>
    hx.bind fun _ _ _ hrefs => .pure hrefs
  have hh := henv.hooks
  cases request with
  | binary verb a b =>
    refine houtcome (binary_secures hh (hL.imp_right ?_) (hops a ?_) (hops b ?_))
    · rintro hr rfl
      exact hr
    all_goals simp [operands]
  | unary verb a =>
    refine houtcome (unary_secures hh (hL.imp_right ?_) (hops a ?_))
    · rintro hr rfl
      exact hr
    · simp [operands]
  | store a key value =>
    exact houtcome (store_secures hh (hL.resolve_right id) (hops value (by simp [operands])))
  | readAttribute a name =>
    exact houtcome (readAttribute_secures hh (hops a (by simp [operands])) name)
  | knows a name =>
    exact (knows_secures (hops a (by simp [operands])) name).bind_nil fun _ _ _ => .pure_of_nil rfl
  | bindAttribute a name value =>
    exact (bindAttribute_secures (hL.resolve_right id) a name
      (hops value (by simp [operands]))).bind_nil fun _ _ _ => .pure_of_nil rfl
  | unbindAttribute a name =>
    exact houtcome (unbindAttribute_secures hh (hL.resolve_right id) a name)
  | text a =>
    exact (text_secures (hops a (by simp [operands]))).bind_nil fun _ _ _ => .pure_of_nil rfl
  | truth a =>
    exact (truth_secures (hops a (by simp [operands]))).bind_nil fun _ _ _ => .pure_of_nil rfl
  | call f args =>
    exact houtcome (call_secures henv (hL.resolve_right id) (hops f (by simp [operands]))
      fun r hr => hops r (by simp [operands, hr]))

end ValueEngine

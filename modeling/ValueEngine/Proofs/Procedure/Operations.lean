/-
  Value engine — every operation is a procedure.

  One lemma for each action that an operation is made of, up to the operations
  themselves. Only those on attributes look at anything of an object but what it holds,
  and those that only read are procedures that write nothing.

  * `Request.procedure`: every request, whatever its operands.
  * `Request.Reads`, `Request.procedure_of_reads`: the requests that write nothing.
  * `Request.CallsNothing`: the requests that run no code of the host but its hooks.
  * `Request.AsksValues`, `Request.values`: the requests that look at values alone.
-/
import ValueEngine.Proofs.Procedure.Values

namespace ValueEngine

variable {σ α : Type} {foreign : ∀ {α : Type}, Action σ α → Prop} {writes : Prop}
  {hooks : Hooks σ}

/-! ## Failing -/

section Failing

variable (hh : hooks.Within foreign)
include hh

theorem report_values (cause : Failure) : ValueProcedure foreign writes (report hooks cause) := by
  refine .bind (.trace _ _) fun _ => ?_
  split
  · rename_i hook hhook
    exact .foreign (hh.onFailure hook hhook cause)
  · exact .pure _

theorem fail_values (cause : Failure) : ValueProcedure foreign writes (fail hooks cause) :=
  .bind (report_values hh cause) fun _ => .pure _

/-! ## Arithmetic -/

theorem integerOutcome_values (op : Operator) :
    ∀ value, ValueProcedure foreign writes (integerOutcome hooks op value)
  | some _ => .freshValue nofun
  | none => fail_values hh _

theorem quotientOutcome_values (x y : Int32) :
    ValueProcedure foreign writes (quotientOutcome hooks x y) := by
  unfold quotientOutcome
  split
  · exact fail_values hh _
  · rename_i hy
    refine .bind (.ofExcept _ fun e he => ?_) fun value => integerOutcome_values hh _ value
    rw [Checked.divide_of_ne_zero hy] at he
    cases he

theorem joinTexts_values (s t : Bytes) : ValueProcedure foreign writes (joinTexts hooks s t) := by
  refine .textLimit (f := fun limit => if limit < s.length + t.length then fail hooks .textTooLong
    else freshValue (.string (s ++ t))) fun limit => ?_
  split
  · exact fail_values hh _
  · exact .freshValue nofun

theorem repeatText_values (text : Bytes) (count : Int32) :
    ValueProcedure foreign writes (repeatText hooks text count) := by
  refine .textLimit (f := fun limit =>
    if count.toInt.toNat = 0 ∨ text = [] then freshValue (.string [])
    else if limit < text.length * count.toInt.toNat then fail hooks .repeatedTextTooLong
    else freshValue (.string (List.replicate count.toInt.toNat text).flatten)) fun limit => ?_
  split
  · exact .freshValue nofun
  · split
    · exact fail_values hh _
    · exact .freshValue nofun

theorem builtin_values {op : Operator} {p q : Payload} {action : Action σ Outcome}
    (h : builtin? hooks op p q = some action) : ValueProcedure foreign writes action := by
  unfold builtin? at h
  split at h <;> cases h
  · exact integerOutcome_values hh _ _
  · exact joinTexts_values hh _ _
  · exact .freshValue nofun
  · exact integerOutcome_values hh _ _
  · exact integerOutcome_values hh _ _
  · exact repeatText_values hh _ _
  · exact quotientOutcome_values hh _ _

theorem applyBuiltin_values (op : Operator) (a b : Ref) :
    ValueProcedure foreign writes (op.applyBuiltin hooks a b) := by
  refine .withRead (fun _ _ _ _ _ => rfl) fun _ x => .withRead (fun _ _ _ _ _ => rfl) fun _ y => ?_
  split
  · rename_i action haction
    exact .bind (.trace _ _) fun _ => .map (builtin_values hh haction) _
  · exact .pure _

theorem applyUnsupported_values (op : Operator) (a b : Ref) (left right : Kind) :
    ValueProcedure foreign writes (op.applyUnsupported hooks a b left right) := by
  unfold Operator.applyUnsupported
  split
  · rename_i hook hhook
    refine .bind (.foreign (hh.onUnsupported hook hhook op a b .exhausted)) fun offered => ?_
    dsimp only
    split
    · exact .pure _
    · exact fail_values hh _
  · exact fail_values hh _

theorem apply_values (op : Operator) (a b : Ref) :
    ValueProcedure foreign writes (op.apply hooks a b) := by
  refine .bind (applyBuiltin_values hh op a b) fun served => ?_
  split
  · exact .pure _
  · exact applyUnsupported_values hh op a b _ _

/-! ## Comparison -/

theorem refuse_values (a b : Object) : ValueProcedure foreign writes (refuse hooks a b) :=
  .bind (report_values hh _) fun _ => .pure _

omit hh in
theorem allEqual_values {test : Ref → Ref → Comparing σ Verdict}
    (ht : ∀ l r pairs, ValueProcedure foreign writes (test l r pairs)) (ls rs : List Ref)
    (pairs : List (ObjId × ObjId)) : ValueProcedure foreign writes (allEqual test ls rs pairs) := by
  induction ls generalizing rs pairs with
  | nil => exact .stateful_pure _ _
  | cons l ls ih =>
    cases rs with
    | nil => exact .stateful_pure _ _
    | cons r rs =>
      refine .stateful_bind (ht l r) (fun verdict pairs => ?_) pairs
      cases verdict with
      | equal => exact ih rs pairs
      | unequal => exact .stateful_pure _ _
      | failed cause => exact .stateful_pure _ _

omit hh in
/-- What a comparison comes to depends on nothing but what the objects hold. -/
theorem equality_congr (depth : Nat) (i j : ObjId) {a a' b b' : Object}
    (ha : a.payload = a'.payload) (hb : b.payload = b'.payload) :
    equality hooks depth i a j b = equality hooks depth i a' j b' := by
  cases a
  cases b
  cases ha
  cases hb
  cases depth <;> rfl

theorem equality_values (depth : Nat) (i : ObjId) (a : Object) (j : ObjId) (b : Object)
    (pairs : List (ObjId × ObjId)) :
    ValueProcedure foreign writes (equality hooks depth i a j b pairs) := by
  induction depth generalizing i a j b pairs with
  | zero => exact .abort _ rfl
  | succ depth ih =>
    simp only [equality]
    split
    · exact .bind (refuse_values hh a b) fun _ => .pure _
    split
    · exact .pure _
    split
    · exact .pure _
    · exact .pure _
    · split
      · exact .pure _
      split
      · exact .pure _
      refine .bind (allEqual_values (fun l r pairs => ?_) _ _ _) fun _ => .pure _
      refine .withRead (fun i => .of_congr fun a a' ha => ?_) fun i a =>
        .withRead (fun j => .of_congr fun b b' hb => ?_) fun j b => ih i a j b pairs
      · simp only [equality_congr depth i _ ha rfl]
      · exact congrFun (equality_congr depth i j rfl hb) pairs
    · exact .bind (refuse_values hh a b) fun _ => .pure _

omit hh in
theorem judge_congr (i j : ObjId) {a a' b b' : Object} (ha : a.payload = a'.payload)
    (hb : b.payload = b'.payload) : judge hooks i a j b = judge hooks i a' j b' := by
  simp only [judge, equality_congr _ i j ha hb]

theorem judge_values (i : ObjId) (a : Object) (j : ObjId) (b : Object) :
    ValueProcedure foreign writes (judge hooks i a j b) :=
  .size (f := fun n => do return (← equality hooks (n * n + 1) i a j b []).1)
    fun _ => .bind (equality_values hh _ i a j b []) fun _ => .pure _

omit hh in
theorem verdict_outcome_values (answer : Bool → Bool) :
    ∀ verdict : Verdict, ValueProcedure foreign writes (verdict.outcome answer : Action σ Outcome)
  | .equal => .freshValue nofun
  | .unequal => .freshValue nofun
  | .failed _ => .pure _

theorem judged_values (answer : Bool → Bool) (a b : Ref) :
    ValueProcedure foreign writes (withRead a fun i x => withRead b fun j y => do
      (← judge hooks i x j y).outcome answer) := by
  refine .withRead (fun i => .of_congr fun x x' hx => ?_) fun i x =>
    .withRead (fun j => .of_congr fun y y' hy => ?_) fun j y =>
      .bind (judge_values hh i x j y) fun verdict => verdict_outcome_values answer verdict
  · simp only [judge_congr i _ hx rfl]
  · simp only [judge_congr i j rfl hy]

theorem orderOf_values (a b : Object) : ValueProcedure foreign writes (orderOf hooks a b) := by
  unfold orderOf
  split
  · exact .pure _
  · exact .bind (report_values hh _) fun _ => .pure _

theorem orderOutcome_values {answer : Ordering → Payload}
    (ha : ∀ order cursor, answer order ≠ .iterator cursor) (a b : Ref) :
    ValueProcedure foreign writes (orderOutcome hooks answer a b) := by
  refine .bind (.withRead (fun _ _ _ _ _ => rfl) fun _ x =>
    .withRead (fun _ _ _ _ _ => rfl) fun _ y => orderOf_values hh x y) fun order => ?_
  split
  · exact .freshValue (ha _)
  · exact .pure _

/-! ## Collections -/

theorem sequenceItem_values {whole : List Ref → Payload}
    (hp : ∀ elements cursor, whole elements ≠ .iterator cursor) (elements : List Ref)
    (key : Payload) : ValueProcedure foreign writes (sequenceItem hooks whole elements key) := by
  unfold sequenceItem
  split
  · split
    · exact .succeed _
    · exact fail_values hh _
  · split
    · exact .freshValue (hp _)
    · exact fail_values hh _
  · exact fail_values hh _

theorem textItem_values (text : Bytes) (key : Payload) :
    ValueProcedure foreign writes (textItem hooks text key) := by
  unfold textItem
  split
  · split
    · exact .freshValue nofun
    · exact fail_values hh _
  · split
    · exact .freshValue nofun
    · exact fail_values hh _
  · exact fail_values hh _

theorem entryItem_values (entries : Table Ref) (key : Payload) :
    ValueProcedure foreign writes (entryItem hooks entries key) := by
  unfold entryItem
  split
  · split
    · exact .succeed _
    · exact fail_values hh _
  · exact fail_values hh _

theorem itemOf_values (collection key : Payload) :
    ValueProcedure foreign writes (itemOf hooks collection key) := by
  unfold itemOf
  split
  · exact sequenceItem_values hh (fun _ _ h => by cases h) _ _
  · exact sequenceItem_values hh (fun _ _ h => by cases h) _ _
  · exact textItem_values hh _ _
  · exact entryItem_values hh _ _
  · exact fail_values hh _

theorem item_values (a key : Ref) : ValueProcedure foreign writes (Ref.item hooks a key) :=
  .withRead (fun _ _ _ _ _ => rfl) fun _ _ => .withRead (fun _ _ _ _ _ => rfl) fun _ _ =>
    itemOf_values hh _ _

theorem replaceOrFail_values (hw : writes) (i : ObjId) :
    ∀ payload, (∀ q cursor, payload = .ok q → q ≠ .iterator cursor) →
      ValueProcedure foreign writes (replaceOrFail hooks i payload)
  | .ok q, hq => .bind (.change (f := fun _ => q) hw (.setPayload fun cursor => hq q cursor rfl))
      fun _ => .succeedNone
  | .error cause, _ => fail_values hh cause

omit hh in
theorem stored?_ne_iterator {p key q : Payload} {value : Ref} (cursor : Cursor)
    (h : p.stored? key value = .ok q) : q ≠ .iterator cursor := by
  rintro rfl
  have hk := kind_stored? h
  cases p <;> cases hk
  cases h

omit hh in
theorem appended?_ne_iterator {p q : Payload} {value : Ref} (cursor : Cursor)
    (h : p.appended? value = .ok q) : q ≠ .iterator cursor := by
  cases p <;> cases h
  nofun

theorem store_values (hw : writes) (a key value : Ref) :
    ValueProcedure foreign writes (Ref.store hooks a key value) := by
  have hbody : ValueProcedure foreign writes (do
      let key ← peek key
      withWrite a fun i collection =>
        replaceOrFail hooks i (collection.payload.stored? key.payload value)) :=
    .peek (fun _ _ _ _ => rfl) fun _ => .lend (fun _ => hw) (fun _ _ _ _ _ => rfl) fun i _ =>
      replaceOrFail_values hh hw i _ fun _ cursor => stored?_ne_iterator cursor
  simp only [Ref.store]
  split
  · exact .bind (.abort _ rfl) fun _ => hbody
  · exact hbody

theorem lengthOutcome_values (length : Nat) :
    ValueProcedure foreign writes (lengthOutcome hooks length) := by
  unfold lengthOutcome
  split
  · exact .freshValue nofun
  · exact fail_values hh _

theorem length_values (a : Ref) : ValueProcedure foreign writes (Ref.length hooks a) := by
  refine .withRead (fun _ _ _ _ _ => rfl) fun _ _ => ?_
  split
  · exact lengthOutcome_values hh _
  · exact fail_values hh _

theorem append_values (hw : writes) (a value : Ref) :
    ValueProcedure foreign writes (Ref.append hooks a value) := by
  have hbody : ValueProcedure foreign writes (withWrite a fun i collection =>
      replaceOrFail hooks i (collection.payload.appended? value)) :=
    .lend (fun _ => hw) (fun _ _ _ _ _ => rfl) fun i _ =>
      replaceOrFail_values hh hw i _ fun _ cursor => appended?_ne_iterator cursor
  simp only [Ref.append]
  split
  · exact .bind (.abort _ rfl) fun _ => hbody
  · exact hbody

omit hh in
theorem matchElement_congr (j : ObjId) {needle needle' : Object}
    (hn : needle.payload = needle'.payload) :
    matchElement hooks j needle = matchElement hooks j needle' := by
  have hj : ∀ i candidate, judge hooks i candidate j needle = judge hooks i candidate j needle' :=
    fun i _ => judge_congr i j rfl hn
  funext element
  simp only [matchElement, hj]
  cases needle
  cases hn
  rfl

omit hh in
theorem membership_congr (collection : Payload) (j : ObjId) {needle needle' : Object}
    (hn : needle.payload = needle'.payload) :
    membership hooks collection j needle = membership hooks collection j needle' := by
  have hscan : ∀ elements, scan hooks j needle elements = scan hooks j needle' elements := by
    intro elements
    induction elements with
    | nil => rfl
    | cons element rest ih => simp only [scan, matchElement_congr j hn, ih]
  cases collection <;> simp only [membership, hscan, hn]

theorem matchElement_values (j : ObjId) (needle : Object) (element : Ref) :
    ValueProcedure foreign writes (matchElement hooks j needle element) := by
  unfold matchElement
  split
  · exact .pure _
  refine .withRead (fun i => .of_congr fun c c' hc => ?_) fun i candidate => ?_
  · rw [judge_congr i j hc rfl]
    cases c
    cases hc
    rfl
  · split
    · exact .pure _
    · exact judge_values hh i candidate j needle

theorem scan_values (j : ObjId) (needle : Object) (elements : List Ref) :
    ValueProcedure foreign writes (scan hooks j needle elements) := by
  induction elements with
  | nil => exact .freshValue nofun
  | cons element rest ih =>
    refine .bind (matchElement_values hh j needle element) fun verdict => ?_
    cases verdict with
    | equal => exact .freshValue nofun
    | unequal => exact ih
    | failed cause => exact .pure _

theorem membership_values (collection : Payload) (j : ObjId) (needle : Object) :
    ValueProcedure foreign writes (membership hooks collection j needle) := by
  unfold membership
  split
  · exact scan_values hh j needle _
  · exact scan_values hh j needle _
  · exact .freshValue nofun
  · exact fail_values hh _
  · exact .freshValue nofun
  · exact fail_values hh _
  · exact fail_values hh _

theorem contains_values (a value : Ref) :
    ValueProcedure foreign writes (Ref.contains hooks a value) := by
  exact .withRead (fun _ _ _ _ _ => rfl) fun _ collection =>
    .withRead (fun j => .of_congr fun _ _ hn => membership_congr collection.payload j hn)
      fun j needle => membership_values hh collection.payload j needle

/-! ## Iteration -/

omit hh in
theorem stepOutcome_values :
    ∀ element, ValueProcedure foreign writes (stepOutcome element : Action σ Outcome)
  | some element => .succeed element
  | none => .pure _

theorem iterate_values (target : Ref) :
    ValueProcedure foreign writes (Ref.iterate hooks target) := by
  have hiterate : Ref.iterate hooks target = peek target >>= fun o =>
      if o.payload.elements?.isSome then freshValue (.iterator { target })
      else fail hooks (.notIterable o.kind) := by
    unfold Ref.iterate
    congr 1
    funext o
    cases o.payload.elements? <;> rfl
  rw [hiterate]
  exact .iterator (fun _ _ _ _ => rfl) (fun _ _ _ _ => rfl) fun _ => fail_values hh _

theorem next_values (hw : writes) (a : Ref) : ValueProcedure foreign writes (Ref.next hooks a) := by
  refine .lend (fun _ => hw) (fun _ _ _ _ _ => rfl) fun i object => ?_
  split
  · refine .withRead (fun _ _ _ _ _ => rfl) fun _ target => ?_
    split
    · exact .bind (.change hw (.movedTo _)) fun _ => stepOutcome_values _
    · exact fail_values hh _
  · exact fail_values hh _

/-! ## Attributes -/

omit hh in
theorem lookup_procedure (name : Bytes) (links : Nat) (r : Ref) :
    Procedure foreign writes (lookup name links r : Action σ Ref) := by
  induction links generalizing r with
  | zero =>
    cases r with
    | none => exact .pure _
    | some i => exact .abort _ rfl
  | succ links ih =>
    cases r with
    | none => exact .pure _
    | some i =>
      refine .peek (fun _ _ => rfl) fun o => ?_
      split
      · exact .pure _
      · exact ih o.type

omit hh in
theorem binding_procedure (a : Ref) (name : Bytes) :
    Procedure foreign writes (Ref.binding a name : Action σ Ref) :=
  .size (f := fun n => lookup name n a) fun n => lookup_procedure name n a

theorem readAttribute_procedure (a : Ref) (name : Bytes) :
    Procedure foreign writes (Ref.readAttribute hooks a name) := by
  refine .bind (binding_procedure a name) fun found => ?_
  split
  · exact .pure _
  · exact .peek (fun _ _ => rfl) fun _ => (fail_values hh _).procedure

omit hh in
theorem knows_procedure (a : Ref) (name : Bytes) :
    Procedure foreign writes (Ref.knows a name : Action σ Bool) :=
  .bind (binding_procedure a name) fun _ => .pure _

omit hh in
theorem bindAttribute_procedure (hw : writes) (a : Ref) (name : Bytes) (value : Ref) :
    Procedure foreign writes (Ref.bindAttribute a name value : Action σ Unit) := by
  refine .lend (fun _ => hw) (fun _ _ _ => rfl) fun i _ => ?_
  cases value with
  | none => exact .abort _ rfl
  | some value => exact .change hw (fun _ _ => rfl) (.of_payload fun _ => rfl)

theorem unbindAttribute_procedure (hw : writes) (a : Ref) (name : Bytes) :
    Procedure foreign writes (Ref.unbindAttribute hooks a name) := by
  refine .bind (.lend (fun _ => hw) (fun _ _ _ => rfl) fun i o => ?_) fun missing => ?_
  · split
    · exact .bind (.change hw (fun _ _ => rfl) (.of_payload fun _ => rfl)) fun _ => .pure _
    · exact .pure _
  · split
    · exact .succeedNone
    · exact (fail_values hh _).procedure

/-! ## Texts -/

omit hh in
theorem payload_render_values {part : Ref → Rendering σ Bytes}
    (hp : ∀ r path, ValueProcedure foreign writes (part r path)) (p : Payload) (path : List ObjId) :
    ValueProcedure foreign writes (p.render part path) := by
  cases p with
  | list elements => exact .stateful_bind (.mapM hp elements) (fun _ => .stateful_pure _) path
  | tuple elements => exact .stateful_bind (.mapM hp elements) (fun _ => .stateful_pure _) path
  | dict entries =>
    refine .stateful_bind (.mapM (fun e => ?_) entries) (fun _ => .stateful_pure _) path
    exact .stateful_bind (hp e.2) fun _ => .stateful_pure _
  | iterator cursor => exact .stateful_bind (hp cursor.target) (fun _ => .stateful_pure _) path
  | _ => exact .stateful_pure _ path

omit hh in
/-- The text of an object depends on nothing but what it holds. -/
theorem render_sees (depth : Nat) (i : ObjId) :
    SeesPayload (render depth i : Object → Rendering σ Bytes) := fun _ _ _ _ => by
  cases depth <;> rfl

omit hh in
theorem render_values (depth : Nat) (i : ObjId) (o : Object) (path : List ObjId) :
    ValueProcedure foreign writes (render depth i o path : Action σ (Bytes × List ObjId)) := by
  induction depth generalizing i o path with
  | zero => exact .abort _ rfl
  | succ depth ih =>
    simp only [render]
    split
    · exact .pure _
    refine .bind (payload_render_values (fun r path => ?_) _ _) fun _ => .pure _
    refine .withRead (fun j => .of_congr fun _ _ hp => ?_) fun j p => ih j p path
    exact congrFun ((render_sees depth j).congr hp) path

omit hh in
theorem textOf_sees (i : ObjId) : SeesPayload (textOf i : Object → Action σ Bytes) :=
  .of_congr fun _ _ ho => by simp only [textOf, (render_sees _ i).congr ho]

omit hh in
theorem textOf_values (i : ObjId) (o : Object) :
    ValueProcedure foreign writes (textOf i o : Action σ Bytes) :=
  .size (f := fun n => do return (← render (n + 1) i o []).1)
    fun _ => .bind (render_values _ i o []) fun _ => .pure _

omit hh in
theorem text_values (r : Ref) : ValueProcedure foreign writes (Ref.text r : Action σ Bytes) := by
  unfold Ref.text
  split
  · exact .pure _
  exact .withRead textOf_sees textOf_values

omit hh in
theorem truth_values (a : Ref) : ValueProcedure foreign writes (Ref.truth a : Action σ Bool) :=
  .withRead (fun _ _ _ _ _ => rfl) fun _ _ => .pure _

/-! ## Calls -/

theorem callTarget_values (f : Ref) : ValueProcedure foreign writes (callTarget hooks f) := by
  refine .withRead (fun _ _ _ _ _ => rfl) fun _ o => ?_
  split
  · exact .pure _
  · exact .pure _
  · exact .pure _
  · exact .bind (fail_values hh _) fun _ => .pure _

end Failing

theorem call_values {env : Environment σ} (henv : env.Within foreign) (f : Ref)
    (args : List Ref) :
    ValueProcedure foreign writes (Ref.call env.hooks env.natives env.evaluator f args) := by
  cases he : env.evaluator with
  | none => exact .abort _ rfl
  | some evaluator =>
    refine .bind (callTarget_values henv.hooks f) fun target => ?_
    cases target with
    | native code => exact .foreign (henv.natives evaluator he code args)
    | evaluator => exact .foreign (henv.evaluator evaluator he f args)
    | nowhere outcome => exact .pure _

/-! ## Requests -/

/-- The requests that change no object. -/
def Request.Reads : Request → Prop
  | binary .append _ _ | unary .next _ | store .. | bindAttribute .. | unbindAttribute .. => False
  | call .. => False
  | _ => True

instance (request : Request) : Decidable request.Reads := by
  cases request with
  | binary verb => cases verb <;> unfold Request.Reads <;> infer_instance
  | unary verb => cases verb <;> unfold Request.Reads <;> infer_instance
  | _ => unfold Request.Reads; infer_instance

/-- A request that runs no code of the host, its hooks aside. -/
def Request.CallsNothing : Request → Prop
  | call .. => False
  | _ => True

/-- A request that asks about values. The others are about attributes. -/
def Request.AsksValues : Request → Prop
  | readAttribute .. | knows .. | bindAttribute .. | unbindAttribute .. => False
  | _ => True

theorem binary_values (hh : hooks.Within foreign) (verb : Binary) (a b : Ref)
    (hw : verb = .append → writes) : ValueProcedure foreign writes (verb.run hooks a b) := by
  cases verb with
  | add | subtract | multiply | divide => exact apply_values hh _ a b
  | equal | different => exact judged_values hh _ a b
  | below | atMost | above | atLeast | rank =>
    exact orderOutcome_values hh (fun _ _ h => by cases h) a b
  | item => exact item_values hh a b
  | append => exact append_values hh (hw rfl) a b
  | contains => exact contains_values hh a b

theorem unary_values (hh : hooks.Within foreign) (verb : Unary) (a : Ref)
    (hw : verb = .next → writes) : ValueProcedure foreign writes (verb.run hooks a) := by
  cases verb with
  | length => exact length_values hh a
  | iterate => exact iterate_values hh a
  | next => exact next_values hh (hw rfl) a

/-- A request about values looks at values alone, if it runs no code of the host but its
    hooks. -/
theorem Request.values {env : Environment σ} (hh : env.hooks.Within foreign) :
    ∀ {request : Request}, request.AsksValues → request.CallsNothing →
      (¬request.Reads → writes) → ValueProcedure foreign writes (request.run env)
  | binary verb a b, _, _, hw =>
    .map (binary_values hh verb a b fun hv => hw fun hr => by subst hv; exact hr) _
  | unary verb a, _, _, hw =>
    .map (unary_values hh verb a fun hv => hw fun hr => by subst hv; exact hr) _
  | store a key value, _, _, hw => .map (store_values hh (hw id) a key value) _
  | text a, _, _, _ => .map (text_values a) _
  | truth a, _, _, _ => .map (truth_values a) _

/-- **Every request is a procedure** over the host code it may enter. -/
theorem Request.procedure {env : Environment σ} (henv : env.Within foreign) (request : Request) :
    Procedure foreign True (request.run env) := by
  cases request with
  | readAttribute a name => exact .map (readAttribute_procedure henv.hooks a name) _
  | knows a name => exact .map (knows_procedure a name) _
  | bindAttribute a name value =>
    exact .bind (bindAttribute_procedure trivial a name value) fun _ => .pure _
  | unbindAttribute a name => exact .map (unbindAttribute_procedure henv.hooks trivial a name) _
  | call f args => exact .map (call_values henv f args).procedure _
  | _ => exact ValueProcedure.procedure (Request.values henv.hooks trivial trivial fun _ => trivial)

/-- A request that changes no object is a procedure that writes nothing. -/
theorem Request.procedure_of_reads {env : Environment σ} (hh : env.hooks.Within foreign)
    {request : Request} (h : request.Reads) : Procedure foreign False (request.run env) := by
  cases request with
  | readAttribute a name => exact .map (readAttribute_procedure hh a name) _
  | knows a name => exact .map (knows_procedure a name) _
  | bindAttribute | unbindAttribute | call => exact h.elim
  | _ => exact ValueProcedure.procedure (Request.values hh trivial trivial fun hw => hw h)

end ValueEngine

/-
  Value engine — actions that keep a world sound.

  An action secures what it refers to: begun in a sound world it ends, on every way out,
  in a sound world in which no object is lost, and what it gives is there. Where aborts
  are not allowed it also comes to a result, and changes no object.

  * `Licence`: whether null slots and aborts are allowed.
  * `World.Sound`, `Follows`: the worlds, and how one comes after another.
  * `Secures`: such actions.
  * `Secures.bind`, `Secures.withRead`, `Secures.fresh`, …: how they compose.
-/
import ValueEngine.Proofs.Soundness.Basic
import ValueEngine.Proofs.Reading.Showing

namespace ValueEngine

variable {σ α β : Type}

/-- Whether objects may have null slots, and whether actions may abort. A null slot can
    always make an action abort. -/
structure Licence where
  nulls : Prop
  aborts : Prop
  aborts_of_nulls : nulls → aborts

namespace Licence

/-- No null slot and no abort. -/
def strict : Licence := ⟨False, False, id⟩

/-- Aborts, but no null slot. -/
def filled : Licence := ⟨False, True, False.elim⟩

/-- Null slots and aborts. -/
def lenient : Licence := ⟨True, True, id⟩

end Licence

/-- A world with a sound heap. Where aborts are not allowed, no object is lent for
    writing. -/
structure World.Sound (L : Licence) (w : World σ) : Prop where
  heap : w.heap.Sound L.nulls
  unwritten : ¬L.aborts → w.heap.Unwritten

/-- What is left of a world: every object, and all contents where aborts are not
    allowed. -/
structure Follows (L : Licence) (w w' : World σ) : Prop where
  survives : Survives w w'
  same : ¬L.aborts → SameContents w w'

/-- An action that keeps a world sound; `refs` are the references in its result. -/
def Secures (L : Licence) (x : Action σ α) (w : World σ) (refs : α → List ObjId) : Prop :=
  w.Sound L →
    (∀ a w', x w = .ok a w' → w'.Sound L ∧ Follows L w w' ∧ ∀ i ∈ refs a, w'.heap.Live i) ∧
    ∀ e w', x w = .error e w' → L.aborts ∧ w'.Sound L ∧ Follows L w w'

/-- The references in an outcome. -/
def Outcome.refs : Outcome → List ObjId
  | success value => [value]
  | failure cause => cause.payload.toList
  | exhausted => []

variable {L : Licence} {w w' : World σ} {refs : α → List ObjId} {x : Action σ α}

namespace Follows

theorem refl (w : World σ) : Follows L w w :=
  ⟨fun _ h => h, fun _ => sameContents_steps.refl w⟩

theorem trans {v : World σ} (h : Follows L w v) (h' : Follows L v w') : Follows L w w' :=
  ⟨fun i hi => h'.survives i (h.survives i hi), fun hL =>
    sameContents_steps.trans (h.same hL) (h'.same hL)⟩

theorem of_heap_eq (h : w'.heap = w.heap) : Follows L w w' :=
  ⟨fun i hi => by rwa [h], fun _ i o ho => ⟨o.loan, by rwa [h]⟩⟩

theorem setLoan (w : World σ) (i : ObjId) (f : Loan → Loan) :
    Follows L w { w with heap := w.heap.update i fun o => { o with loan := f o.loan } } :=
  ⟨.update w i _, fun _ => sameContents_steps.loan w i f⟩

theorem admits {nulls : Prop} {r : Ref} (h : Follows L w w') (hr : w.heap.Admits nulls r) :
    w'.heap.Admits nulls r := hr.mono h.survives

theorem live {i : ObjId} (h : Follows L w w') (hi : w.heap.Live i) : w'.heap.Live i :=
  h.survives i hi

end Follows

/-- Where aborts are not allowed nothing that may stand in a slot is null. -/
theorem Heap.Admits.live {h : Heap} {r : Ref} (hL : ¬L.aborts) (hr : h.Admits L.nulls r) :
    ∃ i, r = some i ∧ h.Live i := by
  cases r with
  | none => exact absurd (L.aborts_of_nulls hr) hL
  | some i => exact ⟨i, rfl, hr⟩

theorem World.Sound.shows (hw : w.Sound L) (hL : ¬L.aborts) : w.Shows w.heap.contents :=
  ⟨rfl, hw.unwritten hL⟩

theorem World.Sound.of_heap_eq (hw : w.Sound L) (h : w'.heap = w.heap) : w'.Sound L :=
  ⟨h ▸ hw.heap, fun hL => h ▸ hw.unwritten hL⟩

namespace Secures

/-! ## Composition -/

theorem pure {a : α} (ha : ∀ i ∈ refs a, w.heap.Live i) :
    Secures L (Pure.pure a) w refs := by
  refine fun hw => ⟨fun b w' h => ?_, fun _ _ h => by cases h⟩
  cases h
  exact ⟨hw, .refl w, ha⟩

/-- A result without references. -/
theorem pure_of_nil {a : α} (ha : refs a = []) : Secures L (Pure.pure a) w refs :=
  pure (by simp [ha])

theorem pure_nil (a : α) : Secures L (Pure.pure a) w fun _ => [] := pure_of_nil rfl

theorem abort (hL : L.aborts) (e : Abort) : Secures L (Action.abort e) w refs := by
  refine fun hw => ⟨(fun _ _ h => by cases h), fun e' w' h => ?_⟩
  cases h
  exact ⟨hL, hw, .refl w⟩

theorem abort_bind {refs : β → List ObjId} (hL : L.aborts) (e : Abort) (f : α → Action σ β) :
    Secures L (Action.abort e >>= f) w refs := abort hL e

/-- What is known of a result may be used in what comes next. -/
theorem bind_run {refsx : α → List ObjId} {refs : β → List ObjId} {f : α → Action σ β}
    (hx : Secures L x w refsx)
    (hf : ∀ a w', x w = .ok a w' → Follows L w w' → (∀ i ∈ refsx a, w'.heap.Live i) →
      Secures L (f a) w' refs) :
    Secures L (x >>= f) w refs := by
  intro hw
  obtain ⟨hok, herror⟩ := hx hw
  cases h : x w with
  | ok a v =>
    obtain ⟨hv, hfollows, hlive⟩ := hok a v h
    obtain ⟨hok', herror'⟩ := hf a v h hfollows hlive hv
    rw [Action.bind_of_ok h]
    refine ⟨fun b w' hb => ?_, fun e w' he => ?_⟩
    · obtain ⟨hw', hfollows', hrefs⟩ := hok' b w' hb
      exact ⟨hw', hfollows.trans hfollows', hrefs⟩
    · obtain ⟨hL, hw', hfollows'⟩ := herror' e w' he
      exact ⟨hL, hw', hfollows.trans hfollows'⟩
  | error e v =>
    rw [Action.bind_of_error h]
    refine ⟨(fun _ _ h => by cases h), fun e' w' he => ?_⟩
    cases he
    exact herror e v h

theorem bind {refsx : α → List ObjId} {refs : β → List ObjId} {f : α → Action σ β}
    (hx : Secures L x w refsx)
    (hf : ∀ a w', Follows L w w' → (∀ i ∈ refsx a, w'.heap.Live i) → Secures L (f a) w' refs) :
    Secures L (x >>= f) w refs := hx.bind_run fun a w' _ => hf a w'

/-- What the first action gives may hold no reference. -/
theorem bind_nil {refs : β → List ObjId} {f : α → Action σ β} (hx : Secures L x w fun _ => [])
    (hf : ∀ a w', Follows L w w' → Secures L (f a) w' refs) : Secures L (x >>= f) w refs :=
  hx.bind fun a w' h _ => hf a w' h

theorem mono {refs' : α → List ObjId} (hx : Secures L x w refs)
    (h : ∀ a, ∀ i ∈ refs' a, i ∈ refs a) : Secures L x w refs' := by
  intro hw
  obtain ⟨hok, herror⟩ := hx hw
  refine ⟨fun a w' ha => ?_, herror⟩
  obtain ⟨hw', hfollows, hlive⟩ := hok a w' ha
  exact ⟨hw', hfollows, fun i hi => hlive i (h a i hi)⟩

theorem nil (hx : Secures L x w refs) : Secures L x w fun _ => [] := hx.mono (by simp)

theorem map {refs : β → List ObjId} {refsx : α → List ObjId} (hx : Secures L x w refsx) (f : α → β)
    (h : ∀ a, ∀ i ∈ refs (f a), i ∈ refsx a) : Secures L (f <$> x) w refs :=
  hx.bind fun a _ _ ha => pure fun i hi => ha i (h a i hi)

theorem discard (hx : Secures L x w refs) : Secures L (Functor.discard x) w fun _ => [] :=
  hx.map (fun _ => PUnit.unit) (by simp)

/-- One action after the other, for each element of a list. -/
theorem mapM {refs : β → List ObjId} {f : α → Action σ β} {xs : List α}
    (hf : ∀ a ∈ xs, ∀ w', Follows L w w' → Secures L (f a) w' refs) :
    Secures L (xs.mapM f) w fun bs => bs.flatMap refs := by
  induction xs generalizing w with
  | nil =>
    rw [List.mapM_nil]
    exact pure_of_nil rfl
  | cons a xs ih =>
    rw [List.mapM_cons]
    refine (hf a List.mem_cons_self w (.refl w)).bind fun b v hv hb => ?_
    refine (ih fun a' ha' w' hw' => ?_).bind fun bs u hu hbs => pure fun i hi => ?_
    · exact hf a' (List.mem_cons_of_mem a ha') w' (hv.trans hw')
    · rcases List.mem_append.1 (List.flatMap_cons ▸ hi) with hi | hi
      · exact hu.live (hb i hi)
      · exact hbs i hi

theorem mapM_nil {f : α → Action σ β} {xs : List α}
    (hf : ∀ a ∈ xs, ∀ w', Follows L w w' → Secures L (f a) w' fun _ => []) :
    Secures L (xs.mapM f) w fun _ => [] := (mapM hf).nil

theorem attempt {refs : Except Abort α → List ObjId} (hx : Secures L x w fun a => refs (.ok a))
    (he : ∀ e, refs (.error e) = []) : Secures L x.attempt w refs := by
  intro hw
  obtain ⟨hok, herror⟩ := hx hw
  refine ⟨fun a w' h => ?_, fun e w' h => ?_⟩ <;> simp only [Action.attempt] at h <;>
    cases hx' : x w <;> rw [hx'] at h <;> cases h
  · exact hok _ _ hx'
  · obtain ⟨-, hw', hfollows⟩ := herror _ _ hx'
    exact ⟨hw', hfollows, by simp [he]⟩

theorem attempt_nil (hx : Secures L x w fun _ => []) : Secures L x.attempt w fun _ => [] :=
  attempt hx fun _ => rfl

/-! ## Steps -/

/-- What does not touch the heap. -/
theorem modify {f : World σ → World σ} (hf : (f w).heap = w.heap) :
    Secures L (modify f : Action σ Unit) w fun _ => [] := by
  refine fun hw => ⟨fun a w' h => ?_, fun _ _ h => by cases h⟩
  cases h
  exact ⟨hw.of_heap_eq hf, .of_heap_eq hf, by simp⟩

theorem get : Secures L (MonadState.get : Action σ (World σ)) w fun _ => [] := by
  refine fun hw => ⟨fun a w' h => ?_, fun _ _ h => by cases h⟩
  cases h
  exact ⟨hw, .refl w, by simp⟩

theorem heap : Secures L (Action.heap : Action σ Heap) w fun _ => [] :=
  get.bind_nil fun _ _ _ => pure_nil _

theorem settings : Secures L (Action.settings : Action σ Settings) w fun _ => [] :=
  get.bind_nil fun _ _ _ => pure_nil _

theorem heap_bind {refs : β → List ObjId} {f : Heap → Action σ β}
    (hf : Secures L (f w.heap) w refs) : Secures L (Action.heap >>= f) w refs := hf

theorem settings_bind {refs : β → List ObjId} {f : Settings → Action σ β}
    (hf : Secures L (f w.settings) w refs) : Secures L (Action.settings >>= f) w refs := hf

theorem trace (level : Int) (message : Bytes) :
    Secures L (trace level message : Action σ Unit) w fun _ => [] := modify (by simp)

/-- A change of an object into one that fits. Objects are changed only where aborts are
    allowed. -/
theorem change {i : ObjId} {f : Object → Object} (hL : L.aborts)
    (hf : ∀ o, w.heap.get? i = some o → o.Fits L.nulls w.heap i → (f o).Fits L.nulls w.heap i) :
    Secures L (Action.updateObject i f) w fun _ => [] := by
  refine fun hw => ⟨fun a w' h => ?_, fun _ _ h => by cases h⟩
  cases h
  exact ⟨⟨hw.heap.update fun o ho => hf o ho (hw.heap.fits i o ho), fun h => absurd hL h⟩,
    ⟨.update w i f, fun h => absurd hL h⟩, by simp⟩

theorem allocate {o : Object} (ho : w.Sound L → o.Fits L.nulls w.heap ⟨w.heap.size⟩)
    (hl : o.loan ≠ .exclusive) : Secures L (Action.allocate o) w fun i => [i] := by
  refine fun hw => ⟨fun a w' h => ?_, fun _ _ h => by cases h⟩
  cases h
  have hlive : (w.heap.allocate o).2.Live (w.heap.allocate o).1 :=
    Heap.live_of_get? (Heap.get?_allocate_self _ _)
  refine ⟨⟨hw.heap.allocate (ho hw), fun hL => (hw.unwritten hL).allocate hl⟩,
    ⟨.allocate w o, fun _ i p hp => ⟨p.loan, Heap.get?_allocate_of_some hp o⟩⟩, fun i hi => ?_⟩
  cases List.mem_singleton.1 hi
  exact hlive

/-- A new object of any type. -/
theorem make (hL : L.aborts) {type : Ref} (ht : w.heap.Admits True type) :
    ∀ {payload : Option Payload},
      (∀ p, payload = some p → p.Fits L.nulls w.heap ⟨w.heap.size⟩) →
      Secures L (make payload type : Action σ ObjId) w fun i => [i]
  | none, _ => abort hL _
  | some p, hp => by
    refine allocate (fun _ => ⟨hp p rfl, nofun, Table.ascending_nil, fun t ht' => ?_⟩) nofun
    subst ht'
    exact ⟨ht, Heap.Live.lt_size ht⟩

/-- A new object of the canonical type of its kind. -/
theorem fresh {payload : Payload} (hp : payload.Fits L.nulls w.heap ⟨w.heap.size⟩)
    (hm : L.aborts ∨ payload.missingPart? = none) :
    Secures L (fresh payload : Action σ ObjId) w fun i => [i] := by
  unfold ValueEngine.fresh
  split
  · rename_i e he
    exact abort (hm.resolve_right (by simp [he])) e
  · exact allocate (fun hw => .of_payload hw.heap hp) nofun

theorem freshValue {payload : Payload} (hp : payload.Fits L.nulls w.heap ⟨w.heap.size⟩)
    (hm : L.aborts ∨ payload.missingPart? = none) :
    Secures L (ValueEngine.freshValue payload : Action σ Outcome) w Outcome.refs :=
  (fresh hp hm).bind fun _ _ _ hi => pure hi

/-- A new object without references. -/
theorem freshValue_plain {payload : Payload} (hs : payload.slots = [])
    (hm : payload.missingPart? = none) :
    Secures L (ValueEngine.freshValue payload : Action σ Outcome) w Outcome.refs :=
  freshValue (.of_slots hs) (.inr hm)

theorem succeed {r : Ref} (hr : w.heap.Admits L.nulls r) :
    Secures L (Action.succeed r : Action σ Outcome) w Outcome.refs := by
  cases r with
  | none => exact abort (L.aborts_of_nulls hr) _
  | some i =>
    refine pure fun j hj => ?_
    cases List.mem_singleton.1 hj
    exact hr

theorem succeedNone : Secures L (succeedNone : Action σ Outcome) w Outcome.refs := by
  refine fun hw => pure (fun i hi => ?_) hw
  cases List.mem_singleton.1 hi
  exact hw.heap.canonical _ noneId_mem_canonicalIds

/-! ## Lending -/

theorem takeLoan_follows {access : Access} {r : Ref} {i : ObjId} {o : Object}
    (haccess : access = .write → L.aborts) (hw : w.Sound L)
    (h : takeLoan access r w = .ok (i, o) w') :
    w'.Sound L ∧ Follows L w w' ∧ r = some i ∧ w'.heap.get? i = some o := by
  have hr := ref_of_takeLoan h
  obtain ⟨p, loan, hp, hl, rfl, rfl⟩ := takeLoan_ok h
  have hset : w.heap.set i { p with loan := loan } =
      w.heap.update i fun o => { o with loan := loan } := by simp [Heap.update, hp]
  refine ⟨⟨?_, fun hL => ?_⟩, ?_, hr, Heap.get?_set_self (Heap.lt_size_of_get? hp) _⟩
  · rw [hset]
    exact hw.heap.setLoan i fun _ => loan
  · refine (hw.unwritten hL).set (Heap.lt_size_of_get? hp) ?_
    cases access with
    | write => exact absurd (haccess rfl) hL
    | read => rintro rfl; cases hl' : p.loan <;> simp [Access.acquire, hl'] at hl
  · rw [hset]
    exact .setLoan w i fun _ => loan

theorem endLoan_sound {access : Access} (haccess : access = .write → L.aborts) (hw : w.Sound L)
    (i : ObjId) : (w.endLoan access i).Sound L where
  heap := hw.heap.setLoan i access.release
  unwritten hL := by
    cases access with
    | write => exact absurd (haccess rfl) hL
    | read => exact ((hw.shows hL).endLoan i).unwritten

/-- Lending keeps a world sound. Objects are lent for writing only where aborts are
    allowed; without aborts there is an object to be lent. -/
theorem lend {access : Access} {r : Ref} {body : ObjId → Object → Action σ α}
    (haccess : access = .write → L.aborts) (hr : L.aborts ∨ w.heap.Admits L.nulls r)
    (hb : ∀ i o v, Follows L w v → r = some i → v.heap.get? i = some o →
      o.Fits L.nulls v.heap i → Secures L (body i o) v refs) :
    Secures L (lend access r body) w refs := by
  intro hw
  cases ht : takeLoan access r w with
  | error e v =>
    cases takeLoan_error ht
    have hrun : ValueEngine.lend access r body w = .error e w := by
      simp only [ValueEngine.lend, ht]
    rw [hrun]
    refine ⟨(fun _ _ h => by cases h), fun e' w' he => ?_⟩
    cases he
    refine ⟨Classical.byContradiction fun hL => ?_, hw, .refl w⟩
    -- a live object that is not lent for writing can be lent for reading
    obtain ⟨i, rfl, hi⟩ := (hr.resolve_left hL).live hL
    obtain ⟨o, ho⟩ := Option.isSome_iff_exists.1 hi
    cases access with
    | write => exact hL (haccess rfl)
    | read =>
      obtain ⟨m, hm⟩ := Access.acquire_read_eq_ok_iff.2 (hw.unwritten hL i o ho)
      rw [takeLoan_of_granted ho hm] at ht
      cases ht
  | ok p v =>
    obtain ⟨i, o⟩ := p
    obtain ⟨hv, hfollows, hri, ho⟩ := takeLoan_follows haccess hw ht
    obtain ⟨hok, herror⟩ := hb i o v hfollows hri ho (hv.heap.fits i o ho) hv
    simp only [ValueEngine.lend, ht]
    cases hx : body i o v with
    | ok a u =>
      obtain ⟨hu, hfollows', hrefs⟩ := hok a u hx
      refine ⟨fun b w' hb => ?_, fun _ _ h => by cases h⟩
      cases hb
      exact ⟨endLoan_sound haccess hu i, (hfollows.trans hfollows').trans (.setLoan u i _),
        fun j hj => Heap.live_update.2 (hrefs j hj)⟩
    | error e u =>
      obtain ⟨hL, hu, hfollows'⟩ := herror e u hx
      refine ⟨(fun _ _ h => by cases h), fun e' w' he => ?_⟩
      cases he
      exact ⟨hL, endLoan_sound haccess hu i, (hfollows.trans hfollows').trans (.setLoan u i _)⟩

theorem withRead {r : Ref} {body : ObjId → Object → Action σ α}
    (hr : L.aborts ∨ w.heap.Admits L.nulls r)
    (hb : ∀ i o v, Follows L w v → r = some i → v.heap.get? i = some o →
      o.Fits L.nulls v.heap i → Secures L (body i o) v refs) :
    Secures L (withRead r body) w refs := lend nofun hr hb

theorem withWrite {r : Ref} {body : ObjId → Object → Action σ α} (hL : L.aborts)
    (hb : ∀ i o v, Follows L w v → r = some i → v.heap.get? i = some o →
      o.Fits L.nulls v.heap i → Secures L (body i o) v refs) :
    Secures L (withWrite r body) w refs := lend (fun _ => hL) (.inl hL) hb

/-- The object that was looked at is one that fits. -/
theorem peek_bind {refs : β → List ObjId} {r : Ref} {f : Object → Action σ β}
    (hr : L.aborts ∨ w.heap.Admits L.nulls r)
    (hf : ∀ i o v, Follows L w v → r = some i → v.heap.Live i → o.Fits L.nulls v.heap i →
      Secures L (f o) v refs) :
    Secures L (peek r >>= f) w refs := by
  intro hw
  have hpeek : Secures L (peek r) w fun _ => [] := withRead hr fun _ o _ _ _ _ _ => pure_nil o
  cases h : peek r w with
  | error e v =>
    rw [Action.bind_of_error h]
    refine ⟨(fun _ _ h => by cases h), fun e' w' he => ?_⟩
    cases he
    exact (hpeek hw).2 e v h
  | ok o v =>
    rw [Action.bind_of_ok h]
    obtain ⟨hv, hfollows, -⟩ := (hpeek hw).1 o v h
    obtain ⟨i, rfl, hi, hfits⟩ : ∃ i, r = some i ∧ v.heap.Live i ∧ o.Fits L.nulls v.heap i := by
      obtain ⟨i, hri, hi⟩ := live_of_peek h
      refine ⟨i, hri, hi, ?_⟩
      unfold peek ValueEngine.withRead ValueEngine.lend at h
      cases ht : takeLoan .read r w with
      | error e u => rw [ht] at h; cases h
      | ok p u =>
        obtain ⟨j, q⟩ := p
        obtain ⟨hu, -, hrj, hq⟩ := takeLoan_follows (by nofun) hw ht
        rw [ht] at h
        cases h
        cases hri.symm.trans hrj
        exact (hu.heap.fits i o hq).mono fun k hk => Heap.live_update.2 hk
    obtain ⟨hok, herror⟩ := hf i o v hfollows rfl hi hfits hv
    refine ⟨fun b w' hb => ?_, fun e w' he => ?_⟩
    · obtain ⟨hw', hfollows', hrefs⟩ := hok b w' hb
      exact ⟨hw', hfollows.trans hfollows', hrefs⟩
    · obtain ⟨hL, hw', hfollows'⟩ := herror e w' he
      exact ⟨hL, hw', hfollows.trans hfollows'⟩

/-! ## Results -/

/-- Without aborts there is a result. -/
theorem returns (hx : Secures L x w refs) (hL : ¬L.aborts) (hw : w.Sound L) :
    ∃ a w', x w = .ok a w' ∧ w'.Sound L := by
  obtain ⟨hok, herror⟩ := hx hw
  cases h : x w with
  | ok a w' => exact ⟨a, w', rfl, (hok a w' h).1⟩
  | error e w' => exact absurd (herror e w' h).1 hL

theorem sound_after (hx : Secures L x w refs) (hw : w.Sound L) :
    (x.after w).Sound L ∧ Follows L w (x.after w) := by
  obtain ⟨hok, herror⟩ := hx hw
  cases h : x w with
  | ok a w' =>
    obtain ⟨hw', hfollows, -⟩ := hok a w' h
    rw [Action.after_of_ok h]
    exact ⟨hw', hfollows⟩
  | error e w' =>
    obtain ⟨-, hw', hfollows⟩ := herror e w' h
    rw [Action.after_of_error h]
    exact ⟨hw', hfollows⟩

end Secures

end ValueEngine

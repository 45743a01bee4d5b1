/-
  Value engine — when there is no text.

  To show an object lends what it holds, and what that holds, each on the way down and
  given back on the way up. So there is a text only if all that can be reached through
  slots can be lent, even what is met behind an ellipsis: it is shown somewhere else.

  * `Presents`: a rendering that gives a text just if something is so, and leaves
    everything as it was in any case.
  * `Payload.presents`, `render_presents`: a payload needs its slots; an object needs the
    slots of what is reached from it around those that are under way.
  * `textOf_cases`: so does the text of an object that is lent, which may itself be shut.
  * `text_returns_iff_readable`: there is a text just if all that is reached can be lent.
-/
import ValueEngine.Proofs.Reading.Around
import ValueEngine.Proofs.Rendering.Text

namespace ValueEngine

variable {σ : Type}

/-! ## Parts -/

/-- A rendering that gives something just if `P`, and otherwise is left because an object
    is shut or a slot is null. In any case it changes nothing. -/
def Presents {α : Type} (x : Rendering σ α) (path : List ObjId) (w : World σ) (P : Prop) : Prop :=
  (P ∧ ∃ a, x path w = .ok (a, path) w) ∨
    ¬P ∧ ∃ e, x path w = .error e w ∧ (e = .exclusivelyLent ∨ e = .nullReference)

namespace Presents

variable {α β : Type} {path : List ObjId} {w : World σ} {P Q : Prop}

theorem pure (a : α) : Presents (Pure.pure a : Rendering σ α) path w True :=
  .inl ⟨trivial, a, rfl⟩

theorem congr {x : Rendering σ α} (h : Presents x path w P) (hPQ : P ↔ Q) :
    Presents x path w Q := by rwa [propext hPQ] at h

theorem bind {x : Rendering σ α} {f : α → Rendering σ β} (hx : Presents x path w P)
    (hf : ∀ a, Presents (f a) path w Q) : Presents (x >>= f) path w (P ∧ Q) := by
  obtain ⟨hP, a, hrun⟩ | ⟨hP, e, hrun, he⟩ := hx
  · have hbind : (x >>= f) path w = f a path w := Action.bind_of_ok hrun fun p => f p.1 p.2
    unfold Presents
    rw [hbind]
    exact (hf a).imp (fun h => ⟨⟨hP, h.1⟩, h.2⟩) fun h => ⟨fun hPQ => h.1 hPQ.2, h.2⟩
  · exact .inr ⟨fun hPQ => hP hPQ.1, e, Action.bind_of_error hrun _, he⟩

/-- What follows does not matter if it always gives something. -/
theorem map {x : Rendering σ α} (hx : Presents x path w P) (g : α → β) :
    Presents (do return g (← x)) path w P :=
  (hx.bind fun a => pure (g a)).congr (and_iff_left trivial)

theorem mapM {x : α → Rendering σ β} {xs : List α} {P : α → Prop}
    (hx : ∀ a ∈ xs, Presents (x a) path w (P a)) : Presents (xs.mapM x) path w (∀ a ∈ xs, P a) := by
  induction xs with
  | nil => exact (pure []).congr (by simp)
  | cons a xs ih =>
    rw [List.mapM_cons, List.forall_mem_cons]
    refine (hx a List.mem_cons_self).bind fun b => ?_
    exact (ih fun a ha => hx a (List.mem_cons_of_mem _ ha)).map (b :: ·)

/-- What is behind a reference is shown just if there is an object that is not shut and can
    be shown. -/
theorem withRead {c : Contents} {shut : ObjId → Prop} {r : Ref}
    {body : ObjId → Object → Rendering σ α} {P : ObjId → Prop} (hw : w.Looks c shut)
    (hb : ∀ j p v, c j = some p.payload → v.Looks c shut → Presents (body j p) path v (P j)) :
    Presents (fun path => ValueEngine.withRead r fun j p => body j p path) path w
      (∃ j, r = some j ∧ (c j).isSome ∧ ¬shut j ∧ P j) := by
  cases hr : r.bind c with
  | none =>
    refine .inr ⟨?_, _, hw.withRead_dead hr _, .inr rfl⟩
    rintro ⟨j, rfl, hlive, -⟩
    rw [Option.bind_some] at hr
    simp [hr] at hlive
  | some b =>
    obtain ⟨j, rfl, hj⟩ := Option.bind_eq_some_iff.1 hr
    by_cases hopen : shut j
    · refine .inr ⟨?_, _, hw.withRead_shut (by simp [hj]) hopen _, .inl rfl⟩
      rintro ⟨k, hk, -, hno, -⟩
      cases hk
      exact hno hopen
    · obtain ⟨p, v, rfl, hv, hread⟩ := hw.withRead_still hj hopen
      obtain ⟨hok, herror⟩ := hread fun j p => body j p path
      have hiff : P j ↔ ∃ k, some j = some k ∧ (c k).isSome ∧ ¬shut k ∧ P k := by
        simp [hj, hopen]
      refine Presents.congr ?_ hiff
      refine (hb j p v hj hv).imp ?_ ?_
      · rintro ⟨hP, a, hrun⟩
        exact ⟨hP, a, hok _ hrun⟩
      · rintro ⟨hP, e, hrun, he⟩
        exact ⟨hP, e, herror _ hrun, he⟩

end Presents

/-- A payload is shown just if all of its slots are. -/
theorem Payload.presents {p : Payload} {part : Ref → Rendering σ Bytes} {path : List ObjId}
    {w : World σ} {P : Ref → Prop} (hpart : ∀ r ∈ p.slots, Presents (part r) path w (P r)) :
    Presents (p.render part) path w (∀ r ∈ p.slots, P r) := by
  cases p with
  | list elements => exact (Presents.mapM hpart).map _
  | tuple elements => exact (Presents.mapM hpart).map _
  | dict entries =>
    have hentries : Presents (entries.mapM fun e => do
        return Bytes.quoted e.1 ++ .ofString ": " ++ (← part e.2)) path w
        (∀ e ∈ entries, P e.2) :=
      Presents.mapM fun e he => (hpart e.2 (List.mem_map_of_mem he)).map _
    exact (hentries.map _).congr List.forall_mem_map.symm
  | iterator cursor =>
    have htarget := hpart cursor.target (by simp [slots])
    exact (htarget.map _).congr (by simp [slots])
  | boolean value => exact (Presents.pure _).congr (by simp [slots])
  | _ => exact (Presents.pure _).congr (by simp [slots])

/-! ## Objects -/

section Objects

variable {c : Contents} {shut : ObjId → Prop} {i : ObjId} {a : Payload} {path : List ObjId}

/-- What is reached from an object around those that are under way has its slots lent just
    if the object has, and what is reached from them around it as well. -/
theorem forall_around_iff (hi : c i = some a) (hmem : i ∉ path) :
    (∀ k, k ∉ path → Around c.Holds path i k → c.Lends shut k) ↔
      ∀ r ∈ a.slots, ∃ j, r = some j ∧ (c j).isSome ∧ ¬shut j ∧
        ∀ k, k ∉ i :: path → Around c.Holds (i :: path) j k → c.Lends shut k := by
  constructor
  · intro h r hr
    obtain ⟨j, rfl, hj, hopen⟩ := h i hmem .refl a hi r hr
    refine ⟨j, rfl, hj, hopen, fun k hk hwalk => ?_⟩
    exact h k (fun hk' => hk (List.mem_cons_of_mem i hk'))
      (.head ⟨hmem, a, hi, hr⟩ hwalk.of_cons)
  · intro h k hk hwalk
    have hlends : c.Lends shut i := by
      intro b hb r hr
      cases hi.symm.trans hb
      obtain ⟨j, hj, hlive, hopen, -⟩ := h r hr
      exact ⟨j, hj, hlive, hopen⟩
    obtain rfl | ⟨j, ⟨b, hb, hj⟩, hrest⟩ := hwalk.cases
    · exact hlends
    · cases hi.symm.trans hb
      by_cases hki : k = i
      · exact hki ▸ hlends
      · obtain ⟨_, hj', -, -, hk'⟩ := h _ hj
        cases hj'
        exact hk' k (by simp [hki, hk]) hrest

/-- **An object is shown just if the slots of all that is reached from it are lent**, around
    those that are under way. Whether it is shut itself makes no difference, unless it is in
    one of the slots. -/
theorem render_presents {h : Heap} (depth : Nat) {w : World σ} {o : Object}
    (hw : w.Looks h.contents shut) (hi : h.contents i = some o.payload) (hnodup : path.Nodup)
    (hpath : ∀ j ∈ path, (h.contents j).isSome) (hdepth : h.size < depth + path.length) :
    Presents (render depth i o) path w
      (∀ k, k ∉ path → Around h.contents.Holds path i k → h.contents.Lends shut k) := by
  induction depth generalizing i o path w with
  | zero =>
    have := Heap.length_path_le hnodup hpath
    omega
  | succ depth ih =>
    by_cases hmem : i ∈ path
    · -- behind the ellipsis nothing is shown
      refine .inl ⟨fun k hk hwalk => ?_, o.kind.ellipsis, ?_⟩
      · rw [hwalk.eq_of_mem hmem] at hk
        exact absurd hmem hk
      · simp only [render, if_pos hmem]
        rfl
    have hunder : ∀ j ∈ i :: path, (h.contents j).isSome := by simpa [hi] using hpath
    have hpart : ∀ r ∈ o.payload.slots, Presents
        (fun path => withRead r fun j p => render depth j p path) (i :: path) w
        (∃ j, r = some j ∧ (h.contents j).isSome ∧ ¬shut j ∧ ∀ k, k ∉ i :: path →
          Around h.contents.Holds (i :: path) j k → h.contents.Lends shut k) := by
      intro r _
      refine .withRead hw fun j p v hj hv => ?_
      exact ih hv hj (List.nodup_cons.2 ⟨hmem, hnodup⟩) hunder (by simp; omega)
    have hfull := (Payload.presents hpart).congr (forall_around_iff hi hmem).symm
    refine hfull.imp ?_ ?_
    · rintro ⟨hP, text, hrun⟩
      refine ⟨hP, text, ?_⟩
      simp only [render, if_neg hmem]
      exact Action.bind_of_ok hrun _
    · rintro ⟨hP, e, hrun, he⟩
      refine ⟨hP, e, ?_, he⟩
      simp only [render, if_neg hmem]
      exact Action.bind_of_error hrun _

/-- The text of an object that is lent already is there just if the slots of all that is
    reached from it are lent, and nothing is changed in any case. -/
theorem textOf_cases {w : World σ} {o : Object} (hw : w.Looks c shut)
    (hi : c i = some o.payload) :
    ((∀ k, Relation.ReflTransGen c.Holds i k → c.Lends shut k) ∧
        ∃ text, textOf i o w = .ok text w) ∨
      (¬∀ k, Relation.ReflTransGen c.Holds i k → c.Lends shut k) ∧
        ∃ e, textOf i o w = .error e w ∧ (e = .exclusivelyLent ∨ e = .nullReference) := by
  have hcontents := hw.contents
  rw [← hcontents] at hw hi
  have hpresents := render_presents (w.heap.size + 1) hw hi .nil (by simp) (by simp)
  have hheap : (Action.heap : Action σ Heap) w = .ok w.heap w := rfl
  simp only [List.not_mem_nil, not_false_eq_true, forall_const, around_nil, hcontents]
    at hpresents
  refine hpresents.imp ?_ ?_
  · rintro ⟨hlends, text, htext⟩
    refine ⟨hlends, text, ?_⟩
    rw [textOf, Action.bind_of_ok hheap]
    exact Action.bind_of_ok htext _
  · rintro ⟨hlends, e, htext, he⟩
    refine ⟨hlends, e, ?_, he⟩
    rw [textOf, Action.bind_of_ok hheap]
    exact Action.bind_of_error htext _

end Objects

/-! ## References -/

/-- An object that readers can have, with an object in each of its slots. -/
def Heap.Readable (h : Heap) (o : Object) : Prop :=
  o.loan ≠ .exclusive ∧ ∀ r ∈ o.payload.slots, (r.bind h.get?).isSome

/-- All that is reached from an object through slots, itself included, can be read. -/
def World.Readable (w : World σ) (i : ObjId) : Prop :=
  ∀ j o, Relation.ReflTransGen w.heap.contents.Holds i j → w.heap.get? j = some o →
    w.heap.Readable o

section References

variable {w : World σ} {i : ObjId}

theorem Heap.bind_contents (h : Heap) (r : Ref) :
    r.bind h.contents = (r.bind h.get?).map Object.payload := by cases r <;> rfl

/-- What is reached can be read just if the object is not shut and the slots of all that is
    reached are lent. -/
theorem World.readable_iff_lends (hi : (w.heap.get? i).isSome) :
    w.Readable i ↔ (¬∃ o, w.heap.get? i = some o ∧ o.loan = .exclusive) ∧
      ∀ k, Relation.ReflTransGen w.heap.contents.Holds i k →
        w.heap.contents.Lends (fun k => ∃ o, w.heap.get? k = some o ∧ o.loan = .exclusive) k := by
  have hlive : ∀ {j o}, w.heap.get? j = some o → (w.heap.contents j).isSome := fun ho => by
    rw [Heap.contents_of_get? ho]
    rfl
  constructor
  · refine fun h => ⟨fun ⟨o, ho, hl⟩ => (h i o .refl ho).1 hl, fun k hk a ha r hr => ?_⟩
    obtain ⟨o, ho, rfl⟩ := Option.map_eq_some_iff.1 ha
    obtain ⟨p, hp⟩ := Option.isSome_iff_exists.1 ((h k o hk ho).2 r hr)
    obtain ⟨j, rfl, hj⟩ := Option.bind_eq_some_iff.1 hp
    refine ⟨j, rfl, hlive hj, fun ⟨q, hq, hl⟩ => ?_⟩
    exact (h j q (hk.tail ⟨_, ha, hr⟩) hq).1 hl
  · rintro ⟨hopen, h⟩ j o hj ho
    refine ⟨fun hl => ?_, fun r hr => ?_⟩
    · obtain rfl | ⟨k, hk, a, ha, hslot⟩ := Relation.ReflTransGen.cases_tail hj
      · exact hopen ⟨o, ho, hl⟩
      · obtain ⟨_, hj', -, hshut⟩ := h k hk a ha _ hslot
        cases hj'
        exact hshut ⟨o, ho, hl⟩
    · obtain ⟨k, rfl, hk, -⟩ := h j hj _ (Heap.contents_of_get? ho) r hr
      rwa [Heap.contents, Option.isSome_map] at hk

/-- The text of a reference is there just if all that is reached can be read, and nothing is
    changed in any case. -/
theorem text_cases (hi : (w.heap.get? i).isSome) :
    (w.Readable i ∧ ∃ text, Ref.text (some i) w = .ok text w) ∨
      ¬w.Readable i ∧ ∃ e, Ref.text (some i) w = .error e w ∧
        (e = .exclusivelyLent ∨ e = .nullReference) := by
  have hreadable := World.readable_iff_lends hi
  obtain ⟨o, ho⟩ := Option.isSome_iff_exists.1 hi
  have hrun : Ref.text (some i) w = withRead (some i) textOf w := rfl
  rw [hrun, hreadable]
  by_cases hloan : o.loan = .exclusive
  · have hlive : (w.heap.contents i).isSome := by rw [Heap.contents_of_get? ho]; rfl
    exact .inr ⟨fun h => h.1 ⟨o, ho, hloan⟩, _,
      w.looks.withRead_shut hlive ⟨o, ho, hloan⟩ textOf, .inl rfl⟩
  · have hopen : ¬∃ p, w.heap.get? i = some p ∧ p.loan = .exclusive :=
      World.Open.not_shut ⟨o, ho, hloan⟩
    obtain ⟨p, v, hp, hv, hread⟩ := w.looks.withRead_still (Heap.contents_of_get? ho) hopen
    obtain ⟨hok, herror⟩ := hread textOf
    have hi' : w.heap.contents i = some p.payload := by rw [Heap.contents_of_get? ho, hp]
    refine (textOf_cases hv hi').imp ?_ ?_
    · rintro ⟨hlends, text, htext⟩
      exact ⟨⟨hopen, hlends⟩, text, hok _ htext⟩
    · rintro ⟨hlends, e, htext, he⟩
      exact ⟨fun h => hlends h.2, e, herror _ htext, he⟩

/-- Whether all can be read does not depend on attributes and types. -/
theorem World.Readable.congr {w' : World σ}
    (h : ∀ j, (w'.heap.get? j).map (fun o => (o.payload, o.loan)) =
      (w.heap.get? j).map fun o => (o.payload, o.loan)) (hr : w.Readable i) : w'.Readable i := by
  have hcontents : w'.heap.contents = w.heap.contents := by
    funext j
    have hj := congrArg (Option.map Prod.fst) (h j)
    rw [Option.map_map, Option.map_map] at hj
    exact hj
  have hlive : ∀ r : Ref, (r.bind w'.heap.get?).isSome = (r.bind w.heap.get?).isSome := by
    intro r
    have hr := congrArg Option.isSome (congrArg (r.bind ·) hcontents)
    simpa only [Heap.bind_contents, Option.isSome_map] using hr
  intro j p hj hp
  have hsame := h j
  rw [hp] at hsame
  obtain ⟨o, ho, hop⟩ := Option.map_eq_some_iff.1 hsame.symm
  obtain ⟨hpayload, hloan⟩ := Prod.mk.inj hop
  obtain ⟨hread, hslots⟩ := hr j o (hcontents ▸ hj) ho
  refine ⟨hloan ▸ hread, fun r hmem => ?_⟩
  rw [hlive]
  exact hslots r (hpayload ▸ hmem)

end References

/-- **There is a text just if all that is reached can be read.** An object has a text just
    if no object that is reached from it through slots, itself included, is lent for writing
    or has a slot without an object. Otherwise the rendering is left for a conflict between
    loans or for the missing object. In both cases nothing is changed, so every loan is what
    it was; and what attributes and types there are makes no difference. -/
theorem text_returns_iff_readable {w : World σ} {i : ObjId} (hi : (w.heap.get? i).isSome) :
    ((∃ text w', Ref.text (some i) w = .ok text w') ↔ w.Readable i) ∧
    (∀ text w', Ref.text (some i) w = .ok text w' → w' = w) ∧
    (∀ e w', Ref.text (some i) w = .error e w' →
      w' = w ∧ (e.category = .loanConflict ∨ e.category = .invalidArgument)) ∧
    ∀ w' : World σ, (∀ j, (w'.heap.get? j).map (fun o => (o.payload, o.loan)) =
        (w.heap.get? j).map fun o => (o.payload, o.loan)) →
      ((∃ text v, Ref.text (some i) w' = .ok text v) ↔
        ∃ text v, Ref.text (some i) w = .ok text v) := by
  have hiff : ∀ {w : World σ}, (w.heap.get? i).isSome →
      ((∃ text w', Ref.text (some i) w = .ok text w') ↔ w.Readable i) := by
    intro w hi
    rcases text_cases hi with ⟨hr, text, hrun⟩ | ⟨hr, e, hrun, -⟩
    · exact iff_of_true ⟨text, w, hrun⟩ hr
    · refine iff_of_false ?_ hr
      rintro ⟨text, w', hok⟩
      cases hrun.symm.trans hok
  refine ⟨hiff hi, fun text w' hok => ?_, fun e w' herror => ?_, fun w' h => ?_⟩
  · rcases text_cases hi with ⟨-, text', hrun⟩ | ⟨-, e, hrun, -⟩ <;> cases hrun.symm.trans hok
    rfl
  · rcases text_cases hi with ⟨-, text', hrun⟩ | ⟨-, e', hrun, he⟩ <;>
      cases hrun.symm.trans herror
    refine ⟨rfl, ?_⟩
    obtain rfl | rfl := he
    · exact .inl rfl
    · exact .inr rfl
  · have hlive := congrArg Option.isSome (h i)
    simp only [Option.isSome_map] at hlive
    rw [hiff (hlive.trans hi), hiff hi]
    exact ⟨World.Readable.congr fun j => (h j).symm, World.Readable.congr h⟩

/-- A list that holds itself and a tuple, whose type and attribute is another list; that one
    has a null slot and is lent for writing; and a dictionary that holds both lists. -/
def halfShut : World Unit where
  heap := ⟨#[
    some { payload := .list [some ⟨0⟩, some ⟨1⟩], type := some ⟨3⟩, attributes := [([97], ⟨3⟩)] },
    some { payload := .tuple [some ⟨2⟩, some ⟨0⟩], type := none },
    some { payload := .noneObject, type := none },
    some { payload := .list [none], type := none, loan := .exclusive },
    some { payload := .dict [([97], some ⟨0⟩), ([98], some ⟨3⟩)], type := none }]⟩
  host := ()

/-- The list has a text, though its type has none; the dictionary has none. -/
theorem text_returns_iff_readable_halfShut :
    halfShut.Readable ⟨0⟩ ∧ ¬∃ text w', Ref.text (some ⟨4⟩) halfShut = .ok text w' := by
  constructor
  · exact (text_returns_iff_readable (i := ⟨0⟩) rfl).1.1 ⟨_, _, rfl⟩
  · rw [(text_returns_iff_readable (w := halfShut) (i := ⟨4⟩) rfl).1]
    intro hreadable
    have hholds : halfShut.heap.contents.Holds ⟨4⟩ ⟨3⟩ := ⟨_, rfl, by decide⟩
    exact (hreadable ⟨3⟩ _ (.single hholds) rfl).1 rfl

end ValueEngine

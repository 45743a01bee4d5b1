/-
  Value engine — the protocol of iterators.

  Several iterators go over one list or tuple while it grows and shrinks. Each gives the
  elements that are at its places at the moment it comes to them, one after the other,
  until it comes to a place that is not there; from then on it has ended.

  * `Heap.Over`: iterators over an object.
  * `Course`, `Turn`: a host that lets iterators take steps, with what has come of them.
  * `Tells`: how the place of an iterator and what has come of its steps belong together.
  * `Course.Sound`, `Turn.sound`: it is so after every turn.
  * `iterators_follow_their_target`: what every step comes to, and what it leaves alone.
-/
import ValueEngine.Proofs.Iteration.Interlude

namespace ValueEngine

open Relation

variable {σ : Type} {t i : ObjId} {w w' : World σ} {cursor cursor' : Cursor}
  {elements : List Ref} {outcome : Outcome} {taken : List (List Ref × Outcome)}
  {hooks : Hooks σ}

/-- An iterator over an object, and where it is. -/
def Heap.Over (h : Heap) (t i : ObjId) (cursor : Cursor) : Prop :=
  h.contents i = some (.iterator cursor) ∧ cursor.target = some t

/-- How the place of an iterator and its steps belong together. With each step stand the
    elements of the sequence at that moment: the first steps gave the elements at their
    own places, the first one for which there was none ended the iterator, and all after
    it found it ended. -/
structure Tells (cursor : Cursor) (taken : List (List Ref × Outcome)) : Prop where
  passed : ∀ k < cursor.position, ∃ elements v,
    taken[k]? = some (elements, .success v) ∧ elements[k]? = some (some v)
  ended : ∀ k elements outcome, cursor.position ≤ k → taken[k]? = some (elements, outcome) →
    outcome = .exhausted
  short : ∀ elements outcome, taken[cursor.position]? = some (elements, outcome) →
    elements.length ≤ cursor.position
  exhausted_iff : cursor.exhausted = true ↔ cursor.position < taken.length

/-! ## Places and steps -/

/-- In a sequence without null slots there is an object at each place. -/
theorem exists_of_lt {place : Nat} (hnull : none ∉ elements) (hlt : place < elements.length) :
    ∃ v, elements[place]? = some (some v) := by
  cases hv : elements[place] with
  | none => exact absurd (hv ▸ List.getElem_mem hlt) hnull
  | some v => exact ⟨v, by rw [List.getElem?_eq_getElem hlt, hv]⟩

/-- A sequence without null slots is one of objects. -/
theorem exists_eq_map_some (hnull : none ∉ elements) :
    ∃ vs : List ObjId, elements = vs.map some := by
  induction elements with
  | nil => exact ⟨[], rfl⟩
  | cons r rest ih =>
    obtain ⟨vs, rfl⟩ := ih fun h => hnull (.tail _ h)
    cases r with
    | none => exact absurd (.head _) hnull
    | some v => exact ⟨v :: vs, rfl⟩

namespace Tells

theorem new (target : Ref) : Tells { target } [] where
  passed := nofun
  ended := by simp
  short := by simp
  exhausted_iff := by simp

theorem position_le (h : Tells cursor taken) : cursor.position ≤ taken.length := by
  cases hp : cursor.position with
  | zero => exact Nat.zero_le _
  | succ k =>
    obtain ⟨elements, v, hk, -⟩ := h.passed k (by omega)
    exact (List.getElem?_eq_some_iff.1 hk).1

theorem passed_append (h : Tells cursor taken) (more : List (List Ref × Outcome)) :
    ∀ k < cursor.position, ∃ elements v,
      (taken ++ more)[k]? = some (elements, .success v) ∧ elements[k]? = some (some v) := by
  intro k hk
  rw [List.getElem?_append_left (hk.trans_le h.position_le)]
  exact h.passed k hk

/-- An iterator that has not ended has passed an element with each step. -/
theorem length_eq (h : Tells cursor taken) (hend : cursor.exhausted = false) :
    taken.length = cursor.position := by
  have hnot : ¬cursor.position < taken.length := by
    rw [← h.exhausted_iff, hend]
    exact Bool.false_ne_true
  have hle := h.position_le
  omega

/-- A step of an iterator that has ended. -/
theorem again (h : Tells cursor taken) (hend : cursor.exhausted = true) (elements : List Ref) :
    Tells cursor (taken ++ [(elements, .exhausted)]) := by
  have hlt := h.exhausted_iff.1 hend
  refine ⟨h.passed_append _, ?_, ?_, ?_⟩
  · intro k elements' outcome hk hget
    rcases Nat.lt_or_ge k taken.length with hkl | hkl
    · rw [List.getElem?_append_left hkl] at hget
      exact h.ended k elements' outcome hk hget
    · rw [List.getElem?_append_right hkl, List.getElem?_singleton] at hget
      split at hget <;> cases hget
      rfl
  · intro elements' outcome hget
    rw [List.getElem?_append_left hlt] at hget
    exact h.short elements' outcome hget
  · simp only [hend, List.length_append, true_iff]
    exact Nat.lt_add_right _ hlt

/-- A step that passes an element. -/
theorem pass {v : ObjId} (h : Tells cursor taken) (hend : cursor.exhausted = false)
    (hv : elements[cursor.position]? = some (some v)) :
    Tells { cursor with position := cursor.position + 1 }
      (taken ++ [(elements, .success v)]) := by
  have hat := h.length_eq hend
  have hafter : ∀ k, cursor.position + 1 ≤ k →
      (taken ++ [(elements, Outcome.success v)])[k]? = none := by
    intro k hk
    rw [List.getElem?_eq_none_iff, List.length_append, List.length_singleton]
    omega
  refine ⟨?_, ?_, ?_, ?_⟩
  · intro k hk
    rcases Nat.lt_or_eq_of_le (Nat.le_of_lt_succ hk) with hlt | rfl
    · exact h.passed_append _ k hlt
    · exact ⟨elements, v, by simp [hat], hv⟩
  · intro k _ _ hk hget
    rw [hafter k hk] at hget
    cases hget
  · intro _ _ hget
    rw [hafter _ (Nat.le_refl _)] at hget
    cases hget
  · simp [hend, hat]

/-- A step that finds no element. -/
theorem finish (h : Tells cursor taken) (hend : cursor.exhausted = false)
    (hshort : elements.length ≤ cursor.position) :
    Tells { cursor with exhausted := true } (taken ++ [(elements, .exhausted)]) := by
  have hat := h.length_eq hend
  refine ⟨h.passed_append _, ?_, ?_, ?_⟩
  · intro k _ _ hk hget
    rw [List.getElem?_append_right (hat.trans_le hk), List.getElem?_singleton] at hget
    split at hget <;> cases hget
    rfl
  · intro elements' _ hget
    simp only [← hat, List.getElem?_concat_length, Option.some.injEq, Prod.mk.injEq] at hget
    rw [← hget.1]
    exact hshort
  · simp [hat]

/-- One more step. -/
theorem next (h : Tells cursor taken) (hnull : none ∉ elements)
    (houtcome : stepOutcome (cursor.next elements).2 w = .ok outcome w') :
    Tells (cursor.next elements).1 (taken ++ [(elements, outcome)]) := by
  cases hend : cursor.exhausted with
  | true =>
    rw [Cursor.next_of_exhausted hend] at houtcome ⊢
    cases houtcome
    exact h.again hend elements
  | false =>
    rcases Nat.lt_or_ge cursor.position elements.length with hlt | hge
    · obtain ⟨v, hv⟩ := exists_of_lt hnull hlt
      rw [Cursor.next_of_lt hend hv] at houtcome ⊢
      cases houtcome
      exact h.pass hend hv
    · rw [Cursor.next_of_ge hend hge] at houtcome ⊢
      cases houtcome
      exact h.finish hend hge

/-- An iterator that has taken more steps is no less far, and where it was if it had
    ended. -/
theorem mono {taken' : List (List Ref × Outcome)} (h : Tells cursor taken)
    (h' : Tells cursor' taken') (hmore : taken <+: taken') :
    cursor.position ≤ cursor'.position ∧ (cursor.exhausted = true →
      cursor'.exhausted = true ∧ cursor'.position = cursor.position) := by
  obtain ⟨more, rfl⟩ := hmore
  have hle : cursor.position ≤ cursor'.position := by
    by_contra hlt
    -- an element that was passed is no end
    obtain ⟨elements, v, hget, -⟩ := h.passed_append more cursor'.position (by omega)
    cases h'.ended _ _ _ (Nat.le_refl _) hget
  refine ⟨hle, fun hend => ?_⟩
  have hlt := h.exhausted_iff.1 hend
  have hge : cursor'.position ≤ cursor.position := by
    by_contra hgt
    obtain ⟨elements, v, hget, -⟩ := h'.passed cursor.position (by omega)
    rw [List.getElem?_append_left hlt] at hget
    cases h.ended _ _ _ (Nat.le_refl _) hget
  refine ⟨h'.exhausted_iff.2 ?_, by omega⟩
  rw [List.length_append]
  omega

end Tells

/-! ## A step of an iterator over a sequence -/

theorem Heap.Over.live {h : Heap} (hover : h.Over t i cursor) : ∃ o, h.get? i = some o ∧
    o.payload = .iterator cursor := Option.map_eq_some_iff.1 hover.1

/-- A sequence is no iterator. -/
theorem Heap.Over.ne {h : Heap} {p : Payload} (hover : h.Over t i cursor)
    (hp : h.contents t = some p) (helements : p.elements? = some elements) : i ≠ t := by
  rintro rfl
  cases hover.1.symm.trans hp
  cases helements

theorem stepOutcome_next (hnull : none ∉ elements) (cursor : Cursor) :
    ∃ outcome, ∀ v : World σ, stepOutcome (cursor.next elements).2 v = .ok outcome v := by
  cases helement : (cursor.next elements).2 with
  | none => exact ⟨.exhausted, fun _ => rfl⟩
  | some element =>
    cases element with
    | none => exact absurd (Cursor.mem_of_next helement) hnull
    | some v => exact ⟨.success v, fun _ => rfl⟩

/-- A step is refused and nothing happens, or it is the one of the cursor. -/
theorem next_cases (hooks : Hooks σ) {p : Payload}
    (hover : w.heap.Over t i cursor)
    (hp : w.heap.contents t = some p) (helements : p.elements? = some elements)
    (hnull : none ∉ elements) :
    (∃ e, Ref.next hooks (some i) w = .error e w) ∨
      ∃ outcome, (∀ v : World σ, stepOutcome (cursor.next elements).2 v = .ok outcome v) ∧
        Ref.next hooks (some i) w = .ok outcome (w.moved i (cursor.next elements).1) := by
  obtain ⟨o, ho, hcursor⟩ := hover.live
  obtain ⟨q, hq, rfl⟩ := Option.map_eq_some_iff.1 hp
  by_cases hloans : o.loan = .free ∧ q.loan ≠ .exclusive
  · obtain ⟨outcome, houtcome⟩ := stepOutcome_next (σ := σ) hnull cursor
    refine .inr ⟨outcome, houtcome, ?_⟩
    rw [next_eq hooks ho hcursor hover.2 hq (hover.ne hp helements) hloans.1 hloans.2 helements,
      houtcome]
  · exact .inl (next_refused hooks ho hcursor hover.2 hq (by tauto))

/-- An iterator that was moved is where it was moved to, and every other where it was. -/
theorem Heap.Over.of_moved {j : ObjId} (h : (w.moved i cursor).heap.Over t j cursor') :
    j = i ∧ cursor' = cursor ∨ j ≠ i ∧ w.heap.Over t j cursor' := by
  obtain ⟨hj, ht⟩ := h
  rcases World.of_contents_moved hj with ⟨rfl, hcursor⟩ | ⟨hji, hold⟩
  · exact .inl ⟨rfl, Payload.iterator.inj hcursor⟩
  · exact .inr ⟨hji, hold, ht⟩

/-! ## Courses -/

/-- A world with the steps that each iterator has taken: the elements of the sequence at
    that moment, and what came of the step. -/
structure Course (σ : Type) where
  world : World σ
  taken : ObjId → List (List Ref × Outcome)

namespace Course

/-- The course after one more step of an iterator. -/
def stepped (c : Course σ) (i : ObjId) (elements : List Ref) (outcome : Outcome) (w : World σ) :
    Course σ where
  world := w
  taken := Function.update c.taken i (c.taken i ++ [(elements, outcome)])

@[simp] theorem world_stepped (c : Course σ) (i : ObjId) (elements : List Ref)
    (outcome : Outcome) (w : World σ) : (c.stepped i elements outcome w).world = w := rfl

theorem taken_stepped_self (c : Course σ) (i : ObjId) (elements : List Ref) (outcome : Outcome)
    (w : World σ) :
    (c.stepped i elements outcome w).taken i = c.taken i ++ [(elements, outcome)] :=
  Function.update_self ..

theorem taken_stepped_of_ne (c : Course σ) {i j : ObjId} (hji : j ≠ i) (elements : List Ref)
    (outcome : Outcome) (w : World σ) :
    (c.stepped i elements outcome w).taken j = c.taken j :=
  Function.update_of_ne hji ..

end Course

/-- A turn of a host that works with the iterators over a sequence. -/
inductive Turn (t : ObjId) : Course σ → Course σ → Prop
  /-- An iterator over the sequence takes a step, -/
  | advance {c : Course σ} {hooks : Hooks σ} {i : ObjId} {cursor : Cursor} {elements : List Ref}
      {outcome : Outcome} {w : World σ} :
      c.world.heap.Over t i cursor →
      (c.world.heap.contents t).bind Payload.elements? = some elements →
      Ref.next hooks (some i) c.world = .ok outcome w →
      Turn t c (c.stepped i elements outcome w)
  /-- or is not let take one. -/
  | refused {c : Course σ} {hooks : Hooks σ} {i : ObjId} {cursor : Cursor} {e : Abort}
      {w : World σ} :
      c.world.heap.Over t i cursor → Ref.next hooks (some i) c.world = .error e w →
      Turn t c ⟨w, c.taken⟩
  | interlude {c : Course σ} {w : World σ} : Interlude t c.world w → Turn t c ⟨w, c.taken⟩

/-- The object is a sequence without null slots, and no iterator over it has been moved. -/
structure Course.Starts (t : ObjId) (c : Course σ) : Prop where
  target : ∃ p, c.world.heap.contents t = some p ∧ p.Iterable
  cursors : ∀ i cursor, c.world.heap.Over t i cursor → cursor = { target := some t }
  taken : ∀ i, c.taken i = []

/-- The object is a sequence without null slots, and every iterator over it is where its
    steps have brought it. -/
structure Course.Sound (t : ObjId) (c : Course σ) : Prop where
  target : ∃ p, c.world.heap.contents t = some p ∧ p.Iterable
  tells : ∀ i cursor, c.world.heap.Over t i cursor → Tells cursor (c.taken i)
  unborn : ∀ i, c.world.heap.size ≤ i.index → c.taken i = []

theorem Course.Starts.sound {c : Course σ} (h : c.Starts t) : c.Sound t where
  target := h.target
  tells i cursor hover := by
    rw [h.cursors i cursor hover, h.taken i]
    exact .new _
  unborn i _ := h.taken i

theorem Course.Sound.advance {c : Course σ} (hs : c.Sound t)
    (hover : c.world.heap.Over t i cursor)
    (helements : (c.world.heap.contents t).bind Payload.elements? = some elements)
    (hrun : Ref.next hooks (some i) c.world = .ok outcome w) :
    (c.stepped i elements outcome w).Sound t := by
  obtain ⟨p, hp, xs, hxs, hnull⟩ := hs.target
  rw [hp, Option.bind_some, hxs] at helements
  cases helements
  rcases next_cases hooks hover hp hxs hnull with ⟨e, h⟩ | ⟨outcome', houtcome, h⟩
  · rw [h] at hrun
    cases hrun
  rw [h] at hrun
  cases hrun
  refine ⟨⟨p, ?_, _, hxs, hnull⟩, fun j cursor' hover' => ?_, fun j hj => ?_⟩
  · rwa [world_stepped, World.contents_moved_of_ne (hover.ne hp hxs).symm]
  · rcases hover'.of_moved with ⟨rfl, rfl⟩ | ⟨hji, hover'⟩
    · rw [taken_stepped_self]
      exact (hs.tells j cursor hover).next hnull (houtcome c.world)
    · rw [taken_stepped_of_ne c hji]
      exact hs.tells j cursor' hover'
  · have hsize : c.world.heap.size ≤ j.index := by simpa using hj
    have hji : j ≠ i := by
      rintro rfl
      have hlt := Heap.lt_size_of_contents hover.1
      omega
    rw [taken_stepped_of_ne c hji]
    exact hs.unborn j hsize

theorem Course.Sound.turn {c d : Course σ} (hs : c.Sound t) (h : Turn t c d) : d.Sound t := by
  cases h with
  | advance hover helements hrun => exact hs.advance hover helements hrun
  | refused hover hrun =>
    obtain ⟨p, hp, xs, hxs, hnull⟩ := hs.target
    rcases next_cases _ hover hp hxs hnull with ⟨e, h⟩ | ⟨outcome, -, h⟩ <;> rw [h] at hrun <;>
      cases hrun
    exact hs
  | interlude h =>
    have hundisturbed := h.undisturbed
    obtain ⟨p, hp, hseq⟩ := hs.target
    refine ⟨hundisturbed.target p hp hseq, fun i cursor hover => ?_, fun i hi => ?_⟩
    · rcases hundisturbed.cursors i cursor hover.1 hover.2 with hold | ⟨hnew, rfl⟩
      · exact hs.tells i cursor ⟨hold, hover.2⟩
      · rw [hs.unborn i hnew]
        exact .new _
    · exact hs.unborn i (hundisturbed.size.trans hi)

/-- What has come of the steps is not forgotten. -/
theorem Turn.taken_prefix {c d : Course σ} (h : Turn t c d) (i : ObjId) :
    c.taken i <+: d.taken i := by
  cases h with
  | @advance _ j _ elements outcome w =>
    by_cases hij : i = j
    · subst hij
      rw [c.taken_stepped_self]
      exact List.prefix_append ..
    · rw [c.taken_stepped_of_ne hij]
  | refused | interlude => exact List.prefix_rfl

theorem Course.Sound.turns {c d : Course σ} (hs : c.Sound t) (h : ReflTransGen (Turn t) c d) :
    d.Sound t ∧ ∀ i, c.taken i <+: d.taken i := by
  induction h with
  | refl => exact ⟨hs, fun _ => List.prefix_rfl⟩
  | tail _ hturn ih => exact ⟨ih.1.turn hturn, fun i => (ih.2 i).trans (hturn.taken_prefix i)⟩

/-! ## The protocol -/

/-- The next step of an iterator when no object is lent: the object at its place, which is
    then passed, if it has not ended and there is one, and the end otherwise. -/
theorem Course.Sound.next_eq {c : Course σ} (hs : c.Sound t)
    (hover : c.world.heap.Over t i cursor) :
    ∃ elements, (c.world.heap.contents t).bind Payload.elements? = some elements ∧
      ((∀ j o, c.world.heap.get? j = some o → o.loan = .free) → ∀ hooks : Hooks σ,
        (cursor.exhausted = false → cursor.position < elements.length →
          ∃ v, elements[cursor.position]? = some (some v) ∧
            Ref.next hooks (some i) c.world = .ok (.success v)
              (c.world.moved i { cursor with position := cursor.position + 1 })) ∧
        (cursor.exhausted = true ∨ elements.length ≤ cursor.position →
          Ref.next hooks (some i) c.world = .ok .exhausted
            (c.world.moved i { cursor with exhausted := true }))) := by
  obtain ⟨p, hp, elements, helements, hnull⟩ := hs.target
  refine ⟨elements, by rw [hp, Option.bind_some, helements], fun hfree hooks => ?_⟩
  obtain ⟨o, ho, hcursor⟩ := hover.live
  obtain ⟨q, hq, rfl⟩ := Option.map_eq_some_iff.1 hp
  have hrun := ValueEngine.next_eq hooks ho hcursor hover.2 hq (hover.ne hp helements)
    (hfree i o ho) (by rw [hfree t q hq]; decide) helements
  constructor
  · intro hend hlt
    obtain ⟨v, hv⟩ := exists_of_lt hnull hlt
    rw [Cursor.next_of_lt hend hv] at hrun
    exact ⟨v, hv, hrun⟩
  · intro h
    rw [hrun]
    cases hend : cursor.exhausted with
    | true =>
      rw [Cursor.next_of_exhausted hend, ← hend]
      rfl
    | false =>
      rw [Cursor.next_of_ge hend (h.resolve_left (by simp [hend]))]
      rfl

/-- An iterator over a list or a tuple never fails, whatever is lent. -/
theorem next_ne_failure {p : Object} (hover : w.heap.Over t i cursor)
    (hp : w.heap.get? t = some p) (helements : p.payload.elements? = some elements)
    (cause : Failure) : Ref.next hooks (some i) w ≠ .ok (.failure cause) w' := by
  intro hrun
  obtain ⟨o, ho, hcursor⟩ := hover.live
  by_cases hloans : o.loan = .free ∧ p.loan ≠ .exclusive
  · have hne := hover.ne (Heap.contents_of_get? hp) helements
    rw [ValueEngine.next_eq hooks ho hcursor hover.2 hp hne hloans.1 hloans.2 helements] at hrun
    exact stepOutcome_ne_failure _ cause hrun
  · obtain ⟨e, h⟩ := next_refused hooks ho hcursor hover.2 hp (by tauto)
    rw [h] at hrun
    cases hrun

/-- **Iterators follow their target**, however their steps are mixed with each other and
    with changes of it. The steps of an iterator have passed the objects that were at its
    places when it came to them; the first for which there was none has ended it for good.
    The next one succeeds just if the iterator has not ended and its place is one of the
    sequence as it is now, and changes nothing but the iterator. No iterator goes back, and
    one that has ended stays where it is. Iterators are made over lists and tuples, and do
    not fail; over anything else a step is a failure that leaves everything as it was. -/
theorem iterators_follow_their_target :
    (∀ (t : ObjId) (c d : Course σ), c.Starts t → ReflTransGen (Turn t) c d →
      ∀ i cursor, d.world.heap.Over t i cursor →
        i ≠ t ∧ Tells cursor (d.taken i) ∧
        (∃ elements, (d.world.heap.contents t).bind Payload.elements? = some elements ∧
          ((∀ j o, d.world.heap.get? j = some o → o.loan = .free) → ∀ hooks : Hooks σ,
            (cursor.exhausted = false → cursor.position < elements.length →
              ∃ v, elements[cursor.position]? = some (some v) ∧
                Ref.next hooks (some i) d.world = .ok (.success v)
                  (d.world.moved i { cursor with position := cursor.position + 1 })) ∧
            (cursor.exhausted = true ∨ elements.length ≤ cursor.position →
              Ref.next hooks (some i) d.world = .ok .exhausted
                (d.world.moved i { cursor with exhausted := true })))) ∧
        ∀ e cursor', ReflTransGen (Turn t) d e → e.world.heap.Over t i cursor' →
          cursor.position ≤ cursor'.position ∧ (cursor.exhausted = true →
            cursor'.exhausted = true ∧ cursor'.position = cursor.position)) ∧
    (∀ (hooks : Hooks σ) (w : World σ) j p, w.heap.get? j = some p → p.loan ≠ .exclusive →
      (p.kind = .list ∨ p.kind = .tuple → ∃ i w', Ref.iterate hooks (some j) w =
        .ok (.success i) w' ∧ w'.heap.Over j i { target := some j }) ∧
      (p.kind ≠ .list → p.kind ≠ .tuple →
        Ref.iterate hooks (some j) w = fail hooks (.notIterable p.kind) w)) ∧
    ∀ (hooks : Hooks σ) (w : World σ) i j cursor p, w.heap.Over j i cursor →
      w.heap.get? j = some p →
      (p.kind = .list ∨ p.kind = .tuple →
        ∀ cause w', Ref.next hooks (some i) w ≠ .ok (.failure cause) w') ∧
      (p.kind ≠ .list → p.kind ≠ .tuple → i ≠ j → hooks.Within (Action.Leads Still) →
        (∀ k o, w.heap.get? k = some o → o.loan = .free) →
        ∃ w', Still w w' ∧ (Ref.next hooks (some i) w = .ok (.failure (.notIterable p.kind)) w' ∨
          ¬hooks.Returns ∧ ∃ e, Ref.next hooks (some i) w = .error e w')) := by
  have hsequence : ∀ {p : Object}, p.kind = .list ∨ p.kind = .tuple →
      ∃ elements, p.payload.elements? = some elements := by
    intro p hkind
    rw [← Option.ne_none_iff_exists']
    intro hnone
    have hrigid := Payload.elements?_eq_none_iff.1 hnone
    exact hkind.elim hrigid.1 hrigid.2
  refine ⟨?_, ?_, ?_⟩
  · intro t c d hc hcd i cursor hover
    obtain ⟨hd, -⟩ := hc.sound.turns hcd
    refine ⟨?_, hd.tells i cursor hover, hd.next_eq hover, fun e cursor' hde hover' => ?_⟩
    · obtain ⟨p, hp, elements, helements, -⟩ := hd.target
      exact hover.ne hp helements
    · obtain ⟨he, hmore⟩ := hd.turns hde
      exact (hd.tells i cursor hover).mono (he.tells i cursor' hover') (hmore i)
  · intro hooks w j p hp hm
    refine ⟨fun hkind => ?_, fun hlist htuple => ?_⟩
    · obtain ⟨elements, helements⟩ := hsequence hkind
      exact ⟨_, _, iterate_eq hp hm helements,
        Heap.contents_of_get? (Heap.get?_allocate_self _ _), rfl⟩
    · exact iterate_of_rigid hp hm (Payload.elements?_eq_none_iff.2 ⟨hlist, htuple⟩)
  · intro hooks w i j cursor p hover hp
    refine ⟨fun hkind cause w' => ?_, fun hlist htuple hne hh hfree => ?_⟩
    · obtain ⟨elements, helements⟩ := hsequence hkind
      exact next_ne_failure hover hp helements cause
    · obtain ⟨o, ho, hcursor⟩ := hover.live
      exact next_of_rigid hooks ho hcursor hover.2 hp hh hne (hfree i o ho)
        (by rw [hfree j p hp]; decide) (Payload.elements?_eq_none_iff.2 ⟨hlist, htuple⟩)

/-! ### A list that grows -/

/-- The list that the host of a new engine makes. -/
def growingList : ObjId := ⟨Heap.initial.size⟩

/-- The iterator over it. -/
def growingIterator : ObjId := ⟨Heap.initial.size + 1⟩

/-- A list with one element. -/
def short : World Unit := (fresh (.list [some noneId])).after (.initial ())

/-- The same with an iterator over it, -/
def begun : World Unit := ((Request.unary .iterate (some growingList)).run {}).after short

/-- which passes the element; -/
def passed : World Unit := begun.moved growingIterator { target := some growingList, position := 1 }

/-- then the list gets another one. -/
def grown : World Unit :=
  ((Request.binary .append (some growingList) (some Kind.list.typeId)).run {}).after passed

theorem starts_short : Course.Starts growingList (⟨short, fun _ => []⟩ : Course Unit) where
  target := ⟨.list [some noneId], by decide, [some noneId], rfl, by decide⟩
  cursors i cursor hover := by
    have hno : ∀ cell ∈ short.heap.cells.toList, ∀ o, cell = some o → o.kind ≠ .iterator := by
      decide
    obtain ⟨o, ho, hcursor⟩ := hover.live
    exact absurd (by rw [Object.kind, hcursor]; rfl) (Heap.forall_get? hno ho)
  taken _ := rfl

/-- The iterator gives the element that was added when it had passed all others. -/
theorem iterators_follow_their_target_grown :
    Ref.next {} (some growingIterator) grown = .ok (.success Kind.list.typeId)
      (grown.moved growingIterator { target := some growingList, position := 2 }) := by
  obtain ⟨hrun, -⟩ := iterators_follow_their_target (σ := Unit)
  have hinterlude : ∀ {w : World Unit} {r : Request}, r.CallsNothing →
      (∀ i, r ≠ .unary .next (some i)) → Interlude growingList w ((r.run {}).after w) :=
    fun hcall hnext => .request (Hooks.within_none _) hcall fun i _ hr => absurd hr (hnext i)
  have hbegun : ReflTransGen (Turn growingList) ⟨short, fun _ => []⟩ ⟨begun, fun _ => []⟩ :=
    .single (.interlude (hinterlude trivial nofun))
  -- the first step passes the one element
  have hover : begun.heap.Over growingList growingIterator { target := some growingList } :=
    ⟨by decide, rfl⟩
  have hfree : ∀ cell ∈ begun.heap.cells.toList, ∀ o, cell = some o → o.loan = .free := by decide
  obtain ⟨-, -, ⟨elements, helements, hnext⟩, -⟩ := hrun _ _ _ starts_short hbegun _ _ hover
  cases helements
  obtain ⟨hpass, -⟩ := hnext (fun _ _ => Heap.forall_get? hfree) {}
  obtain ⟨v, hv, hstep⟩ := hpass rfl (by decide)
  cases hv
  have hpassed := hbegun.tail (.advance hover rfl hstep)
  have hgrown := hpassed.tail (.interlude (hinterlude
    (r := .binary .append (some growingList) (some Kind.list.typeId)) trivial nofun))
  -- the second one passes the other
  have hover' : grown.heap.Over growingList growingIterator
      { target := some growingList, position := 1 } := ⟨by decide, rfl⟩
  have hfree' : ∀ cell ∈ grown.heap.cells.toList, ∀ o, cell = some o → o.loan = .free := by decide
  obtain ⟨-, -, ⟨elements, helements, hnext⟩, -⟩ := hrun _ _ _ starts_short hgrown _ _ hover'
  cases helements
  obtain ⟨hpass, -⟩ := hnext (fun _ _ => Heap.forall_get? hfree') {}
  obtain ⟨v, hv, hstep⟩ := hpass rfl (by decide)
  cases hv
  exact hstep

end ValueEngine

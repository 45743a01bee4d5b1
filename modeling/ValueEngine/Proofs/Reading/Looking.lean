/-
  Value engine — worlds in which some objects are shut to readers.

  * `World.Looks`: a world whose objects hold what is said, some of them lent for writing;
    the others can then be lent for reading (`World.Looks.withRead`), and nothing else can
    (`World.Looks.withRead_shut`, `World.Looks.withRead_dead`).
  * `Contents.Lends`: an object whose slots can all be lent.
  * `World.Open`: an object that readers can have; it is lent whatever else is
    (`World.Open.withRead`).
-/
import ValueEngine.Proofs.Procedure.Lending

namespace ValueEngine

variable {σ α : Type} {w : World σ} {c : Contents} {shut : ObjId → Prop} {i : ObjId}
  {a : Payload}

/-- A world whose objects hold what `c` says, with those that `shut` tells lent for
    writing, and no others. -/
structure World.Looks (w : World σ) (c : Contents) (shut : ObjId → Prop) : Prop where
  contents : w.heap.contents = c
  shut : ∀ i o, w.heap.get? i = some o → (o.loan = .exclusive ↔ shut i)

/-- Every world looks somehow. -/
theorem World.looks (w : World σ) :
    w.Looks w.heap.contents fun i => ∃ o, w.heap.get? i = some o ∧ o.loan = .exclusive where
  contents := rfl
  shut i o ho := by simp [ho]

/-- Where nobody writes nothing is shut. -/
theorem World.Shows.looks (hw : w.Shows c) : w.Looks c fun _ => False where
  contents := hw.contents
  shut i o ho := iff_of_false (hw.unwritten i o ho) id

namespace World.Looks

/-- What is lent to a reader is not shut thereby. -/
theorem lent {o : Object} {l : Loan} (hw : w.Looks c shut) (ho : w.heap.get? i = some o)
    (hl : Access.read.acquire o.loan = .ok l) : (w.lent i o l).Looks c shut where
  contents := (contents_lent ho l).trans hw.contents
  shut j p hp := by
    by_cases hji : j = i
    · subst hji
      rw [get?_lent_self ho] at hp
      cases hp
      rw [← hw.shut j o ho]
      cases hloan : o.loan with
      | shared n => rw [hloan] at hl; cases hl; simp
      | exclusive => rw [hloan] at hl; cases hl
    · rw [World.lent, Heap.get?_set_of_ne hji] at hp
      exact hw.shut j p hp

/-- An object that is there and not shut is lent, and given back. -/
theorem withRead (hw : w.Looks c shut) (hi : c i = some a) (hopen : ¬shut i) :
    ∃ o v, o.payload = a ∧ v.Looks c shut ∧ v.endLoan .read i = w ∧
      ∀ {α : Type} (body : ObjId → Object → Action σ α),
        (∀ r u, body i o v = .ok r u →
          ValueEngine.withRead (some i) body w = .ok r (u.endLoan .read i)) ∧
        ∀ e u, body i o v = .error e u →
          ValueEngine.withRead (some i) body w = .error e (u.endLoan .read i) := by
  rw [← hw.contents] at hi
  obtain ⟨o, ho, rfl⟩ := Option.map_eq_some_iff.1 hi
  have hloan : o.loan ≠ .exclusive := fun h => hopen ((hw.shut i o ho).1 h)
  obtain ⟨l, hl⟩ := Access.acquire_read_eq_ok_iff.2 hloan
  exact ⟨{ o with loan := l }, w.lent i o l, rfl, hw.lent ho hl, endLoan_lent ho hl,
    fun _ => ⟨fun _ _ => lend_of_ok ho hl, fun _ _ => lend_of_error ho hl⟩⟩

/-- What is done with it and changes nothing has changed nothing when it is given back. -/
theorem withRead_still (hw : w.Looks c shut) (hi : c i = some a) (hopen : ¬shut i) :
    ∃ o v, o.payload = a ∧ v.Looks c shut ∧
      ∀ {α : Type} (body : ObjId → Object → Action σ α),
        (∀ r, body i o v = .ok r v → ValueEngine.withRead (some i) body w = .ok r w) ∧
        ∀ e, body i o v = .error e v → ValueEngine.withRead (some i) body w = .error e w := by
  obtain ⟨o, v, ho, hv, hback, hread⟩ := hw.withRead hi hopen
  refine ⟨o, v, ho, hv, fun body => ⟨fun r hr => ?_, fun e he => ?_⟩⟩
  · exact ((hread body).1 r v hr).trans (by rw [hback])
  · exact ((hread body).2 e v he).trans (by rw [hback])

/-- What is shut is not lent. -/
theorem withRead_shut (hw : w.Looks c shut) (hi : (c i).isSome) (hshut : shut i)
    (body : ObjId → Object → Action σ α) :
    ValueEngine.withRead (some i) body w = .error .exclusivelyLent w := by
  rw [← hw.contents, Heap.contents, Option.isSome_map] at hi
  obtain ⟨o, ho⟩ := Option.isSome_iff_exists.1 hi
  exact lend_of_refused ho (by rw [(hw.shut i o ho).2 hshut]; rfl)

/-- Nor is what is not there. -/
theorem withRead_dead (hw : w.Looks c shut) {r : Ref} (hr : r.bind c = none)
    (body : ObjId → Object → Action σ α) :
    ValueEngine.withRead r body w = .error .nullReference w := by
  refine lend_of_dead ?_
  cases r with
  | none => rfl
  | some i =>
    rw [← hw.contents] at hr
    exact Option.map_eq_none_iff.1 hr

end World.Looks

/-- An object in each of whose slots there is an object that is not shut. -/
def Contents.Lends (c : Contents) (shut : ObjId → Prop) (i : ObjId) : Prop :=
  ∀ a, c i = some a → ∀ r ∈ a.slots, ∃ j, r = some j ∧ (c j).isSome ∧ ¬shut j

/-- Where no slot is null and nothing is shut all slots can be lent. -/
theorem Contents.Filled.lends (hc : c.Filled) (i : ObjId) : c.Lends (fun _ => False) i := by
  intro a ha r hr
  obtain ⟨j, b, rfl, hj⟩ := hc.slot ha hr
  exact ⟨j, rfl, by simp [hj], id⟩

/-- An object that readers can have. -/
def World.Open (w : World σ) (i : ObjId) : Prop :=
  ∃ o, w.heap.get? i = some o ∧ o.loan ≠ .exclusive

theorem World.Open.not_shut (h : w.Open i) :
    ¬∃ o, w.heap.get? i = some o ∧ o.loan = .exclusive := by
  obtain ⟨o, ho, hopen⟩ := h
  rintro ⟨p, hp, hl⟩
  cases ho.symm.trans hp
  exact hopen hl

/-- What is there and readers cannot have is shut. -/
theorem World.shut_iff : (∃ o, w.heap.get? i = some o ∧ o.loan = .exclusive) ↔
    (w.heap.contents i).isSome ∧ ¬w.Open i := by
  constructor
  · rintro ⟨o, ho, hl⟩
    exact ⟨by rw [Heap.contents_of_get? ho]; rfl, fun hopen => hopen.not_shut ⟨o, ho, hl⟩⟩
  · rintro ⟨hi, hshut⟩
    rw [Heap.contents, Option.isSome_map] at hi
    obtain ⟨o, ho⟩ := Option.isSome_iff_exists.1 hi
    exact ⟨o, ho, Classical.byContradiction fun hl => hshut ⟨o, ho, hl⟩⟩

/-- What readers can have is lent, and so is then whatever else they can have. -/
theorem World.Open.withRead (hi : w.Open i) (ha : w.heap.contents i = some a) :
    ∃ o v, o.payload = a ∧ v.heap.contents = w.heap.contents ∧ (∀ j, w.Open j → v.Open j) ∧
      v.endLoan .read i = w ∧
      ∀ {α : Type} (body : ObjId → Object → Action σ α),
        (∀ r u, body i o v = .ok r u →
          ValueEngine.withRead (some i) body w = .ok r (u.endLoan .read i)) ∧
        ∀ e u, body i o v = .error e u →
          ValueEngine.withRead (some i) body w = .error e (u.endLoan .read i) := by
  obtain ⟨o, v, ho, hv, hback, hread⟩ := w.looks.withRead ha hi.not_shut
  refine ⟨o, v, ho, hv.contents, fun j hj => ?_, hback, hread⟩
  have hshut := hj.not_shut
  obtain ⟨p, hp, -⟩ := hj
  have hcontents : v.heap.contents j = some p.payload := by
    rw [hv.contents, Heap.contents_of_get? hp]
  obtain ⟨q, hq, -⟩ := Option.map_eq_some_iff.1 hcontents
  exact ⟨q, hq, fun hl => hshut ((hv.shut j q hq).1 hl)⟩

end ValueEngine

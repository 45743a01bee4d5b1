/-
  Value engine — worlds in which objects can be read.

  * `World.Shows`: a world whose objects hold what is said, none of them lent for
    writing; each can then be lent for reading (`World.Shows.withRead`).
  * `Hooks.Returns`: hooks that see failures and do nothing else about them.
  * `Settles`: an action that comes to a result and leaves the world as it was, unless
    the result is final.
-/
import ValueEngine.Action.Lending
import ValueEngine.Action.Reporting
import ValueEngine.Proofs.Reading.Contents

namespace ValueEngine

variable {σ α : Type}

/-- A world whose objects hold what `c` says, with none of them lent for writing. -/
structure World.Shows (w : World σ) (c : Contents) : Prop where
  contents : w.heap.contents = c
  unwritten : w.heap.Unwritten

/-- What the host does about a failure always comes to an end without an abort. -/
def Hooks.Returns (hooks : Hooks σ) : Prop :=
  ∀ hook, hooks.onFailure = some hook → ∀ cause w, ∃ w', hook cause w = .ok () w'

theorem report_eq_ok {hooks : Hooks σ} (hh : hooks.Returns) (cause : Failure) (w : World σ) :
    ∃ w', report hooks cause w = .ok () w' := by
  cases hf : hooks.onFailure with
  | none =>
    refine ⟨w.traced failureLevel cause.text, ?_⟩
    simp [report, trace, hf, bind, EStateM.bind]
  | some hook =>
    obtain ⟨w', hw'⟩ := hh hook hf cause (w.traced failureLevel cause.text)
    refine ⟨w', ?_⟩
    simp [report, trace, hf, bind, EStateM.bind, hw']

/-- To fail is to fail, whatever the host does about it. -/
theorem fail_eq_ok {hooks : Hooks σ} (hh : hooks.Returns) (cause : Failure) (w : World σ) :
    ∃ w', fail hooks cause w = .ok (.failure cause) w' := by
  obtain ⟨w', hw'⟩ := report_eq_ok hh cause w
  exact ⟨w', Action.bind_of_ok hw' _⟩

namespace World.Shows

variable {w : World σ} {c : Contents} {i : ObjId} {a : Payload}

theorem traced (hw : w.Shows c) (level : Int) (message : Bytes) :
    (w.traced level message).Shows c where
  contents := by rw [World.heap_traced, hw.contents]
  unwritten := by rw [World.heap_traced]; exact hw.unwritten

theorem endLoan (hw : w.Shows c) (i : ObjId) : (w.endLoan .read i).Shows c where
  contents := by
    rw [← hw.contents]
    exact Heap.contents_update_of_payload _ _ fun _ => rfl
  unwritten := by
    intro j o ho
    by_cases hji : j = i
    · subst hji
      rw [World.endLoan, Heap.get?_update_self] at ho
      obtain ⟨p, hp, rfl⟩ := Option.map_eq_some_iff.1 ho
      have hu := hw.unwritten j p hp
      cases hl : p.loan <;> simp_all [Access.release]
    · rw [World.endLoan, Heap.get?_update_of_ne hji] at ho
      exact hw.unwritten j o ho

/-- An object that is not lent for writing can be lent for reading. -/
theorem withRead (hw : w.Shows c) (hi : c i = some a) :
    ∃ o w₁, o.payload = a ∧ w₁.Shows c ∧ w₁.endLoan .read i = w ∧
      ∀ {α : Type} (body : ObjId → Object → Action σ α),
        ValueEngine.withRead (some i) body w =
          match body i o w₁ with
          | .ok r w' => .ok r (w'.endLoan .read i)
          | .error e w' => .error e (w'.endLoan .read i) := by
  rw [← hw.contents] at hi
  obtain ⟨o, ho, rfl⟩ := Option.map_eq_some_iff.1 hi
  obtain ⟨m, hm⟩ := Access.acquire_read_eq_ok_iff.2 (hw.unwritten i o ho)
  have hm' : m ≠ .exclusive := by
    rintro rfl
    cases hl : o.loan <;> simp [Access.acquire, hl] at hm
  refine ⟨{ o with loan := m }, { w with heap := w.heap.set i { o with loan := m } }, rfl,
    ⟨?_, hw.unwritten.set (Heap.lt_size_of_get? ho) hm'⟩, ?_, fun body => lend_of_granted ho hm⟩
  · exact (Heap.contents_set (p := { o with loan := m }) ho rfl).trans hw.contents
  · -- giving the object back puts the heap back
    have hback : (w.heap.set i { o with loan := m }).update i
        (fun o => { o with loan := Access.read.release o.loan }) = w.heap :=
      Heap.update_set ho (by simp [Access.release_of_acquire hm])
    simp only [World.endLoan, hback]

end World.Shows

/-! ## Settling -/

/-- An action that comes to a result of some kind and leaves the world as it was, unless
    the result is final. -/
def Settles (x : Action σ α) (w : World σ) (final Q : α → Prop) : Prop :=
  ∃ a w', x w = .ok a w' ∧ Q a ∧ (final a ∨ w' = w)

namespace Settles

variable {x : Action σ α} {w : World σ} {final Q : α → Prop}

theorem pure {a : α} (ha : Q a) : Settles (Pure.pure a) w final Q := ⟨a, w, rfl, ha, .inr rfl⟩

theorem mono {Q' : α → Prop} (h : Settles x w final Q) (hq : ∀ a, Q a → Q' a) :
    Settles x w final Q' := by
  obtain ⟨a, w', hx, ha, hw⟩ := h
  exact ⟨a, w', hx, hq a ha, hw⟩

theorem withRead {c : Contents} {i : ObjId} {a : Payload} {body : ObjId → Object → Action σ α}
    (hw : w.Shows c) (hi : c i = some a)
    (hb : ∀ o w', o.payload = a → w'.Shows c → Settles (body i o) w' final Q) :
    Settles (withRead (some i) body) w final Q := by
  obtain ⟨o, w₁, ho, hw₁, hback, hread⟩ := hw.withRead hi
  obtain ⟨r, w', hr, hQ, hfin⟩ := hb o w₁ ho hw₁
  refine ⟨r, w'.endLoan .read i, by rw [hread, hr], hQ, hfin.imp_right ?_⟩
  rintro rfl
  exact hback

end Settles

end ValueEngine

/-
  Value engine — loans that are exactly what some guards hold.

  A loan only counts: it does not know who has the object, ending it for a writer
  stores that nobody has it, and ending it for a reader takes one off. Both are right
  only while every loan is the number of guards there are. That is the invariant here.

  * `Guard.tally`: how many of some guards lend an object for reading, or for writing.
  * `Loan.Tallies`: a loan that is such numbers.
  * `Exact`: a heap in which every loan is the tally of some guards.
  * `Exact.acquire`, `Exact.release`, `Exact.change`, `Exact.allocate`: what a single
    step makes of it.
-/
import Mathlib.Data.List.Perm.Basic
import ValueEngine.Guard

namespace ValueEngine

/-- How many of some guards lend an object in a given way. A guard that was moved lends
    nothing. -/
def Guard.tally (gs : List Guard) (i : ObjId) (access : Access) : Nat :=
  gs.count { held := some i, access }

/-- A loan that is so many readers and so many writers: any number of readers, or a
    single writer. -/
def Loan.Tallies (count : Access → Nat) : Loan → Prop
  | .shared readers => count .read = readers ∧ count .write = 0
  | .exclusive => count .read = 0 ∧ count .write = 1

/-- A heap in which guards hold live objects, and every loan is the tally of the
    guards. -/
structure Exact (gs : List Guard) (h : Heap) : Prop where
  held : ∀ g ∈ gs, ∀ i, g.held = some i → (h.get? i).isSome
  loans : ∀ i o, h.get? i = some o → o.loan.Tallies (Guard.tally gs i)

namespace Loan.Tallies

variable {count : Access → Nat} {access : Access} {l m : Loan}

theorem acquire (h : l.Tallies count) (ha : access.acquire l = .ok m) :
    m.Tallies fun a => count a + if access = a then 1 else 0 := by
  match access, l, ha with
  | .read, .shared _, rfl => exact ⟨by simp [h.1], by simp [h.2]⟩
  | .write, .shared 0, rfl => exact ⟨by simp [h.1], by simp [h.2]⟩

theorem release (h : m.Tallies fun a => count a + if access = a then 1 else 0) :
    (access.release m).Tallies count := by
  cases access <;> cases m <;> simp [Tallies, Access.release, Loan.free] at h ⊢ <;> omega

/-- Numbers of guards determine the loan. -/
theorem unique (hl : l.Tallies count) (hm : m.Tallies count) : l = m := by
  cases l <;> cases m <;> simp [Tallies] at hl hm ⊢ <;> omega

end Loan.Tallies

theorem Guard.tally_cons_self (gs : List Guard) (i : ObjId) (access : Access) :
    Guard.tally ({ held := some i, access } :: gs) i =
      fun a => Guard.tally gs i a + if access = a then 1 else 0 := by
  funext a
  simp only [Guard.tally, List.count_cons, beq_iff_eq, Guard.mk.injEq, true_and]

theorem Guard.tally_cons_of_ne {g : Guard} {i : ObjId} (h : g.held ≠ some i) (gs : List Guard) :
    Guard.tally (g :: gs) i = Guard.tally gs i := by
  funext a
  exact List.count_cons_of_ne fun e => h (by rw [e])

namespace Exact

variable {gs : List Guard} {h : Heap} {i : ObjId} {o : Object} {access : Access}

theorem perm {gs' : List Guard} (he : Exact gs h) (hp : gs.Perm gs') : Exact gs' h where
  held g hg := he.held g (hp.mem_iff.2 hg)
  loans i o ho := by
    have hc : Guard.tally gs' i = Guard.tally gs i := funext fun a => (hp.count_eq _).symm
    rw [hc]
    exact he.loans i o ho

/-- Guards that hold nothing do not count. -/
theorem cons_empty {g : Guard} (hg : g.held = none) : Exact (g :: gs) h ↔ Exact gs h := by
  have hc : ∀ i, Guard.tally (g :: gs) i = Guard.tally gs i := fun i =>
    Guard.tally_cons_of_ne (by simp [hg]) gs
  constructor
  · intro he
    exact ⟨fun g' hg' => he.held g' (List.mem_cons_of_mem _ hg'),
      fun i o ho => hc i ▸ he.loans i o ho⟩
  · intro he
    refine ⟨fun g' hg' j hj => ?_, fun i o ho => hc i ▸ he.loans i o ho⟩
    rcases List.mem_cons.1 hg' with rfl | hg'
    · rw [hg] at hj; cases hj
    · exact he.held g' hg' j hj

/-- An object is lent for writing where one of the guards there are is for writing it. -/
theorem exclusive_iff (he : Exact gs h) (ho : h.get? i = some o) :
    o.loan = .exclusive ↔ { held := some i, access := .write } ∈ gs := by
  have htally := he.loans i o ho
  have hmem : { held := some i, access := .write } ∈ gs ↔ 0 < Guard.tally gs i .write :=
    List.count_pos_iff.symm
  rw [hmem]
  cases hl : o.loan <;> simp [hl, Loan.Tallies] at htally <;> simp [htally]

/-- A loan that is given is one more guard. -/
theorem acquire {loan : Loan} (he : Exact gs h) (ho : h.get? i = some o)
    (hl : access.acquire o.loan = .ok loan) :
    Exact ({ held := some i, access } :: gs) (h.set i { o with loan := loan }) where
  held g hg j hj := by
    by_cases hji : j = i
    · subst hji
      simp [Heap.get?_set_self (Heap.lt_size_of_get? ho)]
    · rw [Heap.get?_set_of_ne hji]
      rcases List.mem_cons.1 hg with rfl | hg
      · exact absurd (Option.some.inj hj).symm hji
      · exact he.held g hg j hj
  loans j p hp := by
    by_cases hji : j = i
    · subst hji
      rw [Heap.get?_set_self (Heap.lt_size_of_get? ho)] at hp
      cases hp
      rw [Guard.tally_cons_self]
      exact (he.loans j o ho).acquire hl
    · rw [Heap.get?_set_of_ne hji] at hp
      rw [Guard.tally_cons_of_ne (by simpa using Ne.symm hji)]
      exact he.loans j p hp

/-- A loan that ends is one guard less. -/
theorem release (he : Exact ({ held := some i, access } :: gs) h) :
    Exact gs (h.update i fun o => { o with loan := access.release o.loan }) where
  held g hg j hj := by
    have hl := he.held g (List.mem_cons_of_mem _ hg) j hj
    by_cases hji : j = i
    · subst hji
      simpa [Heap.get?_update_self] using hl
    · rwa [Heap.get?_update_of_ne hji]
  loans j p hp := by
    by_cases hji : j = i
    · subst hji
      rw [Heap.get?_update_self] at hp
      obtain ⟨o, ho, rfl⟩ := Option.map_eq_some_iff.1 hp
      have hl := he.loans j o ho
      rw [Guard.tally_cons_self] at hl
      exact hl.release
    · rw [Heap.get?_update_of_ne hji] at hp
      have hl := he.loans j p hp
      rwa [Guard.tally_cons_of_ne (by simpa using Ne.symm hji)] at hl

/-- A change that leaves alone who has the object. -/
theorem change {f : Object → Object} (he : Exact gs h) (hf : ∀ o, (f o).loan = o.loan) :
    Exact gs (h.update i f) where
  held g hg j hj := by
    have hl := he.held g hg j hj
    by_cases hji : j = i
    · subst hji
      simpa [Heap.get?_update_self] using hl
    · rwa [Heap.get?_update_of_ne hji]
  loans j p hp := by
    by_cases hji : j = i
    · subst hji
      rw [Heap.get?_update_self] at hp
      obtain ⟨o, ho, rfl⟩ := Option.map_eq_some_iff.1 hp
      rw [hf]
      exact he.loans j o ho
    · rw [Heap.get?_update_of_ne hji] at hp
      exact he.loans j p hp

/-- A new object: no guard can hold it yet. -/
theorem allocate (he : Exact gs h) (hl : o.loan = .free) : Exact gs (h.allocate o).2 where
  held g hg j hj := by
    obtain ⟨p, hp⟩ := Option.isSome_iff_exists.1 (he.held g hg j hj)
    simp [Heap.get?_allocate_of_some hp]
  loans j p hp := by
    by_cases hj : j = (h.allocate o).1
    · subst hj
      rw [Heap.get?_allocate_self] at hp
      cases hp
      have hn : ∀ a, Guard.tally gs (h.allocate o).1 a = 0 := fun a =>
        List.count_eq_zero.2 fun hm => by
          have := he.held _ hm _ rfl
          simp [Heap.get?_allocate_fst] at this
      rw [hl]
      exact ⟨hn _, hn _⟩
    · rw [Heap.get?_allocate_of_ne hj] at hp
      exact he.loans j p hp

end Exact

end ValueEngine

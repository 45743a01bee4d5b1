/-
  Value engine — loans never change an answer.

  Two runs of one operation are compared, in two worlds that differ only in who has the
  objects, where every loan of the second stands in the way of no more than the one of
  the first. Whatever is given in the first is given in the second, so unless the first
  run is left for a conflict between loans, both do the same.

  * `Loan.Lighter`, `World.Lighter`: loans, and worlds, that stand in the way of less.
  * `Transparent`: actions that do the same in a lighter world.
  * `Procedure.transparent`: every operation is transparent if the host code is.
  * `World.unlent`: the world with nobody having any object, which is lighter.
-/
import ValueEngine.Proofs.Loans.Exact
import ValueEngine.Proofs.Procedure.Operations
import ValueEngine.Proofs.Procedure.Pairs

namespace ValueEngine

variable {σ α β : Type}

/-! ## Lighter loans -/

/-- A loan that stands in the way of no more than another one does. -/
def Loan.Lighter : Loan → Loan → Prop
  | .shared m, .shared n => m ≤ n
  | _, .exclusive => True
  | .exclusive, .shared _ => False

namespace Loan

@[simp] theorem lighter_shared {m n : Nat} : (shared m).Lighter (shared n) ↔ m ≤ n := .rfl

@[simp] theorem lighter_exclusive (l : Loan) : l.Lighter exclusive := by cases l <;> trivial

@[simp] theorem not_lighter_shared {n : Nat} : ¬exclusive.Lighter (shared n) := id

theorem Lighter.refl (l : Loan) : l.Lighter l := by cases l <;> simp

theorem free_lighter (l : Loan) : free.Lighter l := by cases l <;> simp [free]

variable {access : Access} {l l' m : Loan}

/-- What is given in spite of a loan is given in spite of a lighter one. -/
theorem Lighter.acquire (h : l'.Lighter l) (hm : access.acquire l = .ok m) :
    ∃ m', access.acquire l' = .ok m' ∧ m'.Lighter m := by
  match access, l, hm with
  | .read, .shared n, rfl =>
    cases l' with
    | shared n' => exact ⟨_, rfl, Nat.succ_le_succ h⟩
    | exclusive => exact absurd h not_lighter_shared
  | .write, .shared 0, rfl =>
    cases l' with
    | shared n' =>
      rw [lighter_shared, Nat.le_zero] at h
      subst h
      exact ⟨_, rfl, .refl _⟩
    | exclusive => exact absurd h not_lighter_shared

theorem Lighter.release (h : l'.Lighter l) (access : Access) :
    (access.release l').Lighter (access.release l) := by
  cases access with
  | write => exact .refl _
  | read => cases l <;> cases l' <;> simp_all [Access.release]; omega

end Loan

/-! ## Lighter worlds -/

/-- An object with a lighter loan, and otherwise the same. -/
def Object.Lighter (p o : Object) : Prop := ∃ l, p = { o with loan := l } ∧ l.Lighter o.loan

/-- A heap with lighter loans, and otherwise the same. -/
structure Heap.Lighter (h' h : Heap) : Prop where
  size : h'.size = h.size
  objects : ∀ i, Option.Rel Object.Lighter (h'.get? i) (h.get? i)

/-- A world with lighter loans, and otherwise the same. -/
structure World.Lighter (v w : World σ) : Prop where
  heap : v.heap.Lighter w.heap
  settings : v.settings = w.settings
  trace : v.trace = w.trace
  host : v.host = w.host

/-- In a lighter world, objects with lighter loans stand for the others. -/
theorem World.lighter_iff {v w : World σ} :
    v.Lighter w ↔ v.Paired (fun _ => Object.Lighter) w where
  mp h := ⟨⟨h.heap.size, h.heap.objects⟩, h.settings, h.trace, h.host⟩
  mpr h := ⟨⟨h.heap.size, h.heap.objects⟩, h.settings, h.trace, h.host⟩

/-- Whatever is given of an object is given of one with a lighter loan, and what is
    refused is a conflict. -/
theorem Object.lighter_pairing :
    Pairing (fun _ => Object.Lighter) (fun e => e.isLoanConflict = true) where
  refl _ o := ⟨o.loan, rfl, .refl _⟩
  grant := by
    rintro access i p o m ⟨l, rfl, hlo⟩ hm
    obtain ⟨m', hm', hmm⟩ := hlo.acquire hm
    exact ⟨m', hm', m', rfl, hmm⟩
  refuse _ hm := .inl (Access.isLoanConflict_of_acquire hm)
  release := by
    rintro access i p o ⟨l, rfl, hlo⟩
    exact ⟨access.release l, rfl, hlo.release access⟩

/-- What does not depend on who has an object does not tell it from a lighter one. -/
theorem Object.Lighter.congr {f : Object → α} (hf : ∀ o loan, f { o with loan := loan } = f o)
    {p o : Object} (h : p.Lighter o) : f p = f o := by
  obtain ⟨l, rfl, -⟩ := h
  exact hf o l

/-! ## Transparent actions -/

/-- An action that does the same in a lighter world, unless it is left for a conflict
    between loans. -/
def Transparent (x : Action σ α) : Prop :=
  ∀ v w : World σ, v.Lighter w →
    match x w with
    | .ok a w' => ∃ v', x v = .ok a v' ∧ v'.Lighter w'
    | .error e w' => e.isLoanConflict = true ∨ ∃ v', x v = .error e v' ∧ v'.Lighter w'

theorem transparent_iff {x : Action σ α} : Transparent x ↔
    x.Matches (fun _ => Object.Lighter) fun e => e.isLoanConflict = true := by
  simp only [Transparent, World.lighter_iff]
  rfl

namespace Transparent

theorem pure (a : α) : Transparent (Pure.pure a : Action σ α) := transparent_iff.2 (.pure a)

theorem abort (e : Abort) : Transparent (Action.abort e : Action σ α) :=
  transparent_iff.2 (.abort e)

end Transparent

/-- **Procedures are transparent** if the host code that they enter is. -/
theorem Procedure.transparent {foreign : ∀ {α : Type}, Action σ α → Prop} {writes : Prop}
    (hforeign : ∀ {α : Type} {x : Action σ α}, foreign x → Transparent x) {x : Action σ α}
    (h : Procedure foreign writes x) : Transparent x := by
  have hR := Object.lighter_pairing
  refine transparent_iff.2 ?_
  induction h with
  | pure a => exact .pure a
  | abort e _ => exact .abort e
  | bind _ _ ihx ihf => exact ihx.bind ihf
  | lend _ hloan _ ih => exact .lend hR (fun i _ _ hpo => hpo.congr (hloan i)) ih
  | peek hloan _ ih => exact .peek hR (fun _ _ _ hpo => hpo.congr hloan) ih
  | size _ ih => exact .size ih
  | textLimit _ ih => exact .textLimit ih
  | trace level message => exact .trace level message
  | fresh _ => exact .fresh hR _
  | iterator hp hf _ ih =>
    exact .iterator hR (fun _ _ _ hpo => hpo.congr hp) (fun _ _ _ hpo => hpo.congr hf) ih
  | change _ hloan _ =>
    rename_i i f _ _
    refine .change ?_
    rintro p o ⟨l, rfl, hlo⟩
    -- the function leaves the loan alone
    have hkeeps := congrArg Object.loan (hloan o o.loan)
    refine ⟨l, hloan o l, ?_⟩
    rwa [show (f o).loan = o.loan from hkeeps]
  | foreign hx => exact transparent_iff.1 (hforeign hx)

/-! ## Nobody has any object -/

/-- The heap with nobody having any object. -/
def Heap.unlent (h : Heap) : Heap := ⟨h.cells.map (Option.map fun o => { o with loan := .free })⟩

/-- The world with nobody having any object. -/
def World.unlent (w : World σ) : World σ := { w with heap := w.heap.unlent }

@[simp] theorem Heap.get?_unlent (h : Heap) (i : ObjId) :
    h.unlent.get? i = (h.get? i).map fun o => { o with loan := .free } := by
  simp only [Heap.get?, Heap.unlent, Array.getElem?_map]
  cases h.cells[i.index]? <;> rfl

@[simp] theorem Heap.size_unlent (h : Heap) : h.unlent.size = h.size := by
  simp [Heap.size, Heap.unlent]

theorem World.unlent_lighter (w : World σ) : w.unlent.Lighter w := by
  refine ⟨⟨w.heap.size_unlent, fun i => ?_⟩, rfl, rfl, rfl⟩
  rw [World.unlent, Heap.get?_unlent]
  cases w.heap.get? i with
  | none => exact .none
  | some o => exact .some ⟨.free, rfl, Loan.free_lighter _⟩

/-- Worlds of which one is lighter differ only in who has the objects. -/
theorem World.Lighter.unlent_eq {v w : World σ} (hl : v.Lighter w) : v.unlent = w.unlent := by
  have hheap : v.heap.unlent = w.heap.unlent := by
    refine Heap.ext_get? (by simpa using hl.heap.size) fun i => ?_
    rw [Heap.get?_unlent, Heap.get?_unlent]
    have hr := hl.heap.objects i
    revert hr
    cases v.heap.get? i <;> cases w.heap.get? i <;> intro hr <;> cases hr
    · rfl
    · rename_i hpo
      obtain ⟨l, rfl, -⟩ := hpo
      rfl
  obtain ⟨heap, settings, trace, host⟩ := w
  obtain ⟨-, rfl, rfl, rfl⟩ := hl
  simp only [World.unlent, hheap]

/-- With no guard there is no loan. -/
theorem exact_unlent (h : Heap) : Exact [] h.unlent where
  held := nofun
  loans i o ho := by
    rw [Heap.get?_unlent] at ho
    obtain ⟨p, -, rfl⟩ := Option.map_eq_some_iff.1 ho
    exact ⟨rfl, rfl⟩

end ValueEngine

/-
  Value engine — loans.

  An object is lent to any number of readers or to one writer, never to both.

  * `Loan`: who has an object now.
  * `Access`: what a loan is for; `Access.acquire` and `Access.release` are its two
    ends.
  * `release_of_acquire`: ending a loan leaves things as they were before it.
  * `acquire_eq_ok_iff`: when a loan is given.
-/
import ValueEngine.Outcome.Abort

namespace ValueEngine

/-- Who has an object now: so many readers, or one writer. -/
inductive Loan
  | shared (readers : Nat)
  | exclusive
  deriving DecidableEq, Repr

/-- Nobody has the object. -/
def Loan.free : Loan := .shared 0

/-- What an object is lent for. -/
inductive Access
  | read
  | write
  deriving DecidableEq, Repr

namespace Access

/-- Lends an object once more. Readers are refused while there is a writer, a writer
    while there is anybody. -/
def acquire : Access → Loan → Except Abort Loan
  | read, .shared readers => .ok (.shared (readers + 1))
  | write, .shared 0 => .ok .exclusive
  | write, .shared (_ + 1) => .error .lentToReaders
  | _, .exclusive => .error .exclusivelyLent

/-- Ends a loan. -/
def release : Access → Loan → Loan
  | read, .shared readers => .shared (readers - 1)
  | read, .exclusive => .exclusive
  | write, _ => .free

theorem release_of_acquire {access : Access} {l m : Loan} (h : access.acquire l = .ok m) :
    access.release m = l := by
  match access, l, h with
  | read, .shared _, rfl => rfl
  | write, .shared 0, rfl => rfl

theorem acquire_read_eq_ok_iff {l : Loan} :
    (∃ m, read.acquire l = .ok m) ↔ l ≠ .exclusive := by
  cases l <;> simp [acquire]

theorem acquire_write_eq_ok_iff {l : Loan} :
    (∃ m, write.acquire l = .ok m) ↔ l = .free := by
  match l with
  | .shared 0 => simp [acquire, Loan.free]
  | .shared (_ + 1) => simp [acquire, Loan.free]
  | .exclusive => simp [acquire, Loan.free]

theorem isLoanConflict_of_acquire {access : Access} {l : Loan} {e : Abort}
    (h : access.acquire l = .error e) : e.isLoanConflict = true := by
  match access, l, h with
  | read, .exclusive, rfl => rfl
  | write, .exclusive, rfl => rfl
  | write, .shared (_ + 1), rfl => rfl

end Access

end ValueEngine

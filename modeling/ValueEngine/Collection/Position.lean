/-
  Value engine — places in sequences.

  * `position?`: the place that an index means; negative ones count from the end.
  * `SliceBounds.positions?`: the places that a slice selects, in order.
  * `SliceBounds.select?`: the elements at these places.
  * `position?_lt`, `lt_of_positions?`: what means a place means one inside the sequence.
-/
import ValueEngine.Object.Basic

namespace ValueEngine

/-- The place that an index means in a sequence of some length. -/
def position? (index : Int32) (length : Nat) : Option Nat :=
  let place := if index.toInt < 0 then index.toInt + length else index.toInt
  if 0 ≤ place ∧ place < length then some place.toNat else none

theorem position?_lt {index : Int32} {length place : Nat} (h : position? index length = some place) :
    place < length := by
  simp only [position?, Option.ite_none_right_eq_some, Option.some.injEq] at h
  omega

namespace SliceBounds

/-- A bound brought into the range from `lower` to `upper`; a negative one counts
    from the end. -/
def clamp (bound length lower upper : Int) : Int :=
  if bound < 0 then max (bound + length) lower else min bound upper

/-- The step of a slice, one unless given. -/
def stride (b : SliceBounds) : Int := (b.step.map Int32.toInt).getD 1

/-- The least place a bound of the slice can mean. -/
def lower (b : SliceBounds) : Int := if b.stride < 0 then -1 else 0

/-- The greatest place a bound of the slice can mean. -/
def upper (b : SliceBounds) (length : Nat) : Int :=
  if b.stride < 0 then (length : Int) - 1 else length

/-- Where the selection starts. -/
def first (b : SliceBounds) (length : Nat) : Int :=
  match b.start with
  | some v => clamp v.toInt length b.lower (b.upper length)
  | none => if b.stride < 0 then b.upper length else b.lower

/-- Where the selection stops; this place is not selected any more. -/
def last (b : SliceBounds) (length : Nat) : Int :=
  match b.stop with
  | some v => clamp v.toInt length b.lower (b.upper length)
  | none => if b.stride < 0 then b.lower else b.upper length

/-- Whether a place lies before the end of the selection. -/
def before (step place stop : Int) : Bool :=
  if 0 < step then place < stop else stop < place

/-- The places from `place` on in steps of `step` and before `stop`, at most as many
    as the first argument tells. -/
def walk (step stop : Int) : Nat → Int → List Nat
  | 0, _ => []
  | count + 1, place =>
    if before step place stop then place.toNat :: walk step stop count (place + step) else []

/-- The places that the slice selects in a sequence of some length, in order. There
    are none to speak of when the step is zero. No place is selected twice, so the
    length bounds their number. -/
def positions? (b : SliceBounds) (length : Nat) : Option (List Nat) :=
  if b.stride = 0 then none
  else some (walk b.stride (b.last length) length (b.first length))

/-- The elements that the slice selects, in order, unless its step is zero. -/
def select? {α : Type} (b : SliceBounds) (xs : List α) : Option (List α) :=
  (b.positions? xs.length).map fun places => places.filterMap (xs[·]?)

theorem length_walk_le (step stop : Int) (count : Nat) (place : Int) :
    (walk step stop count place).length ≤ count := by
  induction count generalizing place with
  | zero => simp [walk]
  | succ n ih => simp only [walk]; split <;> simp [ih]

/-- A walk that starts inside a sequence, or before its end if it goes up, and stops at
    its border at the latest stays inside. -/
theorem lt_of_mem_walk {step stop : Int} {length count : Nat} {place : Int} {n : Nat}
    (hup : 0 < step → 0 ≤ place ∧ stop ≤ length)
    (hdown : ¬0 < step → place < length ∧ -1 ≤ stop) (hn : n ∈ walk step stop count place) : n < length := by
  induction count generalizing place with
  | zero => simp [walk] at hn
  | succ count ih =>
    simp only [walk] at hn
    split at hn
    · rename_i hbefore
      simp only [before] at hbefore
      rcases List.mem_cons.1 hn with rfl | hn
      · split at hbefore <;> simp only [decide_eq_true_eq] at hbefore <;> omega
      · refine ih (fun h => ?_) (fun h => ?_) hn
        · have := hup h
          omega
        · have := hdown h
          omega
    · cases hn

theorem clamp_mem {bound length lower upper : Int} (hlower : lower ≤ 0) (hle : lower ≤ upper)
    (hlength : length - 1 ≤ upper) :
    lower ≤ clamp bound length lower upper ∧ clamp bound length lower upper ≤ upper := by
  unfold clamp
  split <;> omega

theorem lower_le_upper (b : SliceBounds) (length : Nat) :
    b.lower ≤ 0 ∧ b.lower ≤ b.upper length ∧ (length : Int) - 1 ≤ b.upper length := by
  unfold lower upper
  split <;> omega

theorem first_mem (b : SliceBounds) (length : Nat) :
    b.lower ≤ b.first length ∧ b.first length ≤ b.upper length := by
  obtain ⟨hlower, hle, hlength⟩ := b.lower_le_upper length
  unfold first
  split
  · exact clamp_mem hlower hle hlength
  · split <;> omega

theorem last_mem (b : SliceBounds) (length : Nat) :
    b.lower ≤ b.last length ∧ b.last length ≤ b.upper length := by
  obtain ⟨hlower, hle, hlength⟩ := b.lower_le_upper length
  unfold last
  split
  · exact clamp_mem hlower hle hlength
  · split <;> omega

/-- A slice selects places inside the sequence only. -/
theorem lt_of_positions? {b : SliceBounds} {length : Nat} {places : List Nat}
    (h : b.positions? length = some places) : ∀ place ∈ places, place < length := by
  intro place hplace
  simp only [positions?, Option.ite_none_left_eq_some, Option.some.injEq] at h
  obtain ⟨hstride, rfl⟩ := h
  obtain ⟨hfirst, hfirst'⟩ := b.first_mem length
  obtain ⟨hlast, hlast'⟩ := b.last_mem length
  refine lt_of_mem_walk (fun hup => ?_) (fun hdown => ?_) hplace
  · have hn : ¬b.stride < 0 := by omega
    simp only [lower, upper, if_neg hn] at hfirst hlast'
    exact ⟨hfirst, hlast'⟩
  · have hn : b.stride < 0 := by omega
    simp only [lower, upper, if_pos hn] at hfirst' hlast
    exact ⟨by omega, hlast⟩

theorem positions?_eq_none_iff {b : SliceBounds} {length : Nat} :
    b.positions? length = none ↔ b.step = some 0 := by
  have h : b.stride = 0 ↔ b.step = some 0 := by
    unfold stride
    cases b.step with
    | none => simp
    | some v => simp [← Int32.toInt_inj]
  rw [← h]
  simp [positions?]

end SliceBounds

end ValueEngine

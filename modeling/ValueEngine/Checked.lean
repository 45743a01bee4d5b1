/-
  Value engine — checked arithmetic on 32-bit integers.

  * `Checked.ofInt?`: a mathematical integer as a 32-bit one, if it fits.
  * `Checked.add`, `subtract`, `multiply`: the exact result, or `none` when it leaves
    the range.
  * `Checked.divide`: the quotient truncated towards zero.
  * `Checked.order`: how the integers are ordered.
  * `ofInt?_eq_some_iff`: narrowing succeeds exactly inside the range and keeps the
    value.
-/
import ValueEngine.Outcome.Abort

namespace ValueEngine.Checked

/-- The 32-bit integer with a given value, if there is one. -/
def ofInt? (value : Int) : Option Int32 :=
  if Int32.minValue.toInt ≤ value ∧ value ≤ Int32.maxValue.toInt then some (Int32.ofInt value)
  else none

/-- The exact sum, or `none` on overflow. -/
def add (x y : Int32) : Option Int32 := ofInt? (x.toInt + y.toInt)

/-- The exact difference, or `none` on overflow. -/
def subtract (x y : Int32) : Option Int32 := ofInt? (x.toInt - y.toInt)

/-- The exact product, or `none` on overflow. -/
def multiply (x y : Int32) : Option Int32 := ofInt? (x.toInt * y.toInt)

/-- The quotient truncated towards zero, or `none` on overflow. A zero divisor is a
    misuse. -/
def divide (x y : Int32) : Except Abort (Option Int32) :=
  if y = 0 then .error .zeroDivisor else .ok (ofInt? (x.toInt.tdiv y.toInt))

/-- How two integers are ordered. -/
def order (x y : Int32) : Ordering :=
  if x.toInt < y.toInt then .lt else if y.toInt < x.toInt then .gt else .eq

/-- An order as a number: `-1`, `0` or `1`. -/
def sign : Ordering → Int32
  | .lt => -1
  | .eq => 0
  | .gt => 1

theorem ofInt?_eq_some_iff {value : Int} {v : Int32} : ofInt? value = some v ↔ v.toInt = value := by
  unfold ofInt?
  split
  · rename_i h
    have hv : (Int32.ofInt value).toInt = value := Int32.toInt_ofInt_of_le h.1 (by
      have := h.2; simp only [Int32.toInt_maxValue] at this; omega)
    constructor
    · rintro h'; cases h'; exact hv
    · intro h'; rw [← h', Int32.ofInt_toInt]
  · rename_i h
    simp only [reduceCtorEq, false_iff]
    rintro rfl
    exact h ⟨Int32.le_toInt v, by have := Int32.toInt_lt v; simp only [Int32.toInt_maxValue]; omega⟩

@[simp] theorem ofInt?_toInt (v : Int32) : ofInt? v.toInt = some v := ofInt?_eq_some_iff.2 rfl

theorem divide_of_ne_zero {y : Int32} (h : y ≠ 0) (x : Int32) :
    divide x y = .ok (ofInt? (x.toInt.tdiv y.toInt)) := if_neg h

end ValueEngine.Checked

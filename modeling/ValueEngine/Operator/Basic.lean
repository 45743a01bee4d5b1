/-
  Value engine — the binary arithmetic operators.

  * `Operator`: the operators, each with a code and a symbol.
  * `Operator.ofCode?`: the operator of a code.
-/
import ValueEngine.Bytes

namespace ValueEngine

/-- A binary arithmetic operator. -/
inductive Operator
  | add
  | subtract
  | multiply
  | divide
  deriving DecidableEq, Repr, Inhabited

namespace Operator

/-- The operator of a code. -/
def ofCode? : Int → Option Operator
  | 0 => some add
  | 1 => some subtract
  | 2 => some multiply
  | 3 => some divide
  | _ => none

/-- How an operator is written. -/
def symbol : Operator → Bytes
  | add => .ofString "+"
  | subtract => .ofString "-"
  | multiply => .ofString "*"
  | divide => .ofString "/"

/-- How the operator of a code is written. -/
def symbolOfCode (code : Int) : Bytes :=
  match ofCode? code with
  | some op => op.symbol
  | none => .ofString "?"

/-- What an operator does, as a noun. -/
def noun : Operator → Bytes
  | add => .ofString "addition"
  | subtract => .ofString "subtraction"
  | multiply => .ofString "multiplication"
  | divide => .ofString "division"

theorem symbol_injective {p q : Operator} (h : p.symbol = q.symbol) : p = q := by
  revert h; cases p <;> cases q <;> decide

end Operator

end ValueEngine

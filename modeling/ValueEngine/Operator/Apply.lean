/-
  Value engine — operators on values.

  Which operator works on which kinds is a flat table. What the table leaves open the
  host may serve; otherwise it is a failure.

  * `Operator.supports`: the table.
  * `builtin?`: the operation behind an entry of the table
    (`isSome_builtin?`: there is one exactly for the entries).
  * `Operator.apply`: an operator on two references.
  * `Ref.add`, `Ref.subtract`, `Ref.multiply`, `Ref.divide`: the operators by name.
-/
import ValueEngine.Action.Creation
import ValueEngine.Action.Lending
import ValueEngine.Action.Reporting
import ValueEngine.Checked

namespace ValueEngine

variable {σ : Type}

/-- Whether the engine itself serves an operator on two kinds. -/
def Operator.supports : Operator → Kind → Kind → Bool
  | .add, .integer, .integer => true
  | .add, .string, .string => true
  | .add, .list, .list => true
  | .subtract, .integer, .integer => true
  | .multiply, .integer, .integer => true
  | .multiply, .string, .integer => true
  | .divide, .integer, .integer => true
  | _, _, _ => false

/-! ## The operations of the table -/

/-- A new integer, or the overflow of an operator. -/
def integerOutcome (hooks : Hooks σ) (op : Operator) : Option Int32 → Action σ Outcome
  | some value => freshValue (.integer value)
  | none => fail hooks (.arithmeticOverflow op)

/-- The quotient of two integers. -/
def quotientOutcome (hooks : Hooks σ) (x y : Int32) : Action σ Outcome := do
  if y = 0 then fail hooks .divisionByZero
  else integerOutcome hooks .divide (← Action.ofExcept (Checked.divide x y))

/-- Two strings in one, within the length limit. -/
def joinTexts (hooks : Hooks σ) (s t : Bytes) : Action σ Outcome := do
  let settings ← Action.settings
  if settings.textLimit < s.length + t.length then fail hooks .textTooLong
  else freshValue (.string (s ++ t))

/-- A string so many times over, none for a negative number, within the length limit. -/
def repeatText (hooks : Hooks σ) (text : Bytes) (count : Int32) : Action σ Outcome := do
  let times := count.toInt.toNat
  let settings ← Action.settings
  if times = 0 ∨ text = [] then freshValue (.string [])
  else if settings.textLimit < text.length * times then fail hooks .repeatedTextTooLong
  else freshValue (.string (List.replicate times text).flatten)

/-- What the engine does for an operator on two payloads, if it serves them. -/
def builtin? (hooks : Hooks σ) : Operator → Payload → Payload → Option (Action σ Outcome)
  | .add, .integer x, .integer y => some (integerOutcome hooks .add (Checked.add x y))
  | .add, .string s, .string t => some (joinTexts hooks s t)
  | .add, .list ls, .list rs => some (freshValue (.list (ls ++ rs)))
  | .subtract, .integer x, .integer y =>
    some (integerOutcome hooks .subtract (Checked.subtract x y))
  | .multiply, .integer x, .integer y =>
    some (integerOutcome hooks .multiply (Checked.multiply x y))
  | .multiply, .string s, .integer n => some (repeatText hooks s n)
  | .divide, .integer x, .integer y => some (quotientOutcome hooks x y)
  | _, _, _ => none

theorem isSome_builtin? (hooks : Hooks σ) (op : Operator) (p q : Payload) :
    (builtin? hooks op p q).isSome = op.supports p.kind q.kind := by
  cases op <;> cases p <;> cases q <;> rfl

/-! ## Serving an operator -/

namespace Operator

/-- What the trace tells of an operator that is served. -/
def tracedAs (op : Operator) (left right : Kind) : Bytes :=
  Bytes.joinWith (.ofString " ") [.ofString "dispatch", left.name, op.symbol, right.name]

/-- Serves an operator from the table while both operands are lent for reading; gives
    their kinds where the table has no entry. -/
def applyBuiltin (hooks : Hooks σ) (op : Operator) (a b : Ref) :
    Action σ (Except (Kind × Kind) Outcome) :=
  withRead a fun _ x => withRead b fun _ y =>
    match builtin? hooks op x.payload y.payload with
    | some action => do
      trace operatorLevel (op.tracedAs x.kind y.kind)
      return .ok (← action)
    | none => return .error (x.kind, y.kind)

/-- Serves an operator that the table does not: by the host if it can, else by failing.
    Nothing is lent meanwhile. -/
def applyUnsupported (hooks : Hooks σ) (op : Operator) (a b : Ref) (left right : Kind) :
    Action σ Outcome := do
  match hooks.onUnsupported with
  | some hook =>
    let (counts, outcome) ← hook op a b .exhausted
    if counts then return outcome else fail hooks (.unsupportedOperands op left right)
  | none => fail hooks (.unsupportedOperands op left right)

/-- An operator on two references. -/
def apply (hooks : Hooks σ) (op : Operator) (a b : Ref) : Action σ Outcome := do
  match ← op.applyBuiltin hooks a b with
  | .ok outcome => return outcome
  | .error (left, right) => op.applyUnsupported hooks a b left right

/-- The operator of a code on two references. -/
def applyCode (hooks : Hooks σ) (code : Int) (a b : Ref) : Action σ Outcome :=
  match ofCode? code with
  | some op => op.apply hooks a b
  | none => Action.abort .unknownOperator

end Operator

namespace Ref

/-- The sum of two values. -/
def add (hooks : Hooks σ) (a b : Ref) : Action σ Outcome := Operator.add.apply hooks a b

/-- The difference of two values. -/
def subtract (hooks : Hooks σ) (a b : Ref) : Action σ Outcome := Operator.subtract.apply hooks a b

/-- The product of two values. -/
def multiply (hooks : Hooks σ) (a b : Ref) : Action σ Outcome := Operator.multiply.apply hooks a b

/-- The quotient of two values. -/
def divide (hooks : Hooks σ) (a b : Ref) : Action σ Outcome := Operator.divide.apply hooks a b

end Ref

end ValueEngine

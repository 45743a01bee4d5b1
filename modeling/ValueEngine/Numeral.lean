/-
  Value engine — decimal numerals.

  * `Numeral.ofNat`: the numeral of a natural number, without leading zeros.
  * `Numeral.ofInt`: the numeral of an integer, with a minus sign exactly when it is
    negative.
-/
import ValueEngine.Bytes

namespace ValueEngine.Numeral

/-- The decimal numeral of a natural number. -/
def ofNat (n : Nat) : Bytes :=
  (Nat.toDigits 10 n).map fun c => c.toNat.toUInt8

/-- The decimal numeral of an integer. -/
def ofInt : Int → Bytes
  | .ofNat n => ofNat n
  | .negSucc n => Bytes.ofString "-" ++ ofNat (n + 1)

theorem ofInt_natCast (n : Nat) : ofInt n = ofNat n := rfl

theorem ofInt_neg_succ (n : Nat) : ofInt (-(n + 1 : Nat)) = Bytes.ofString "-" ++ ofNat (n + 1) := rfl

end ValueEngine.Numeral

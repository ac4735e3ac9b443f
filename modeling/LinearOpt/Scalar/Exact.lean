import LinearOpt.Scalar
import LinearOpt.Decimal.Numeral

/-!
# Exact rationals

The rational numbers without any limit on their size. Only division by zero faults.
-/

namespace LinearOpt

namespace Exact

/-- The fraction `n / d`. -/
def ofFraction (n d : Int) : Except Fault Rat :=
  if d = 0 then .error .zeroDivision else .ok (Rat.divInt n d)

/-- The quotient of two rationals. -/
def quotient (a b : Rat) : Except Fault Rat :=
  if b = 0 then .error .zeroDivision else .ok (a / b)

/-- Lowest terms with the sign on the numerator. A whole number has no denominator. -/
def text (x : Rat) : String :=
  if x.den = 1 then toString x.num else toString x.num ++ "/" ++ toString x.den

end Exact

instance : Scalar Rat where
  zero := 0
  one := 1
  add a b := .ok (a + b)
  sub a b := .ok (a - b)
  mul a b := .ok (a * b)
  div := Exact.quotient
  neg a := .ok (-a)
  lt a b := decide (a < b)
  eq a b := decide (a = b)
  isFinite _ := true
  exact := true
  text := Exact.text

instance : Numeral Rat where
  read? text := do
    let (n, d) ← Decimal.fraction? text.toList
    if d = 0 then none
    return Exact.ofFraction n d

end LinearOpt

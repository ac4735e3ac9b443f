import LinearOpt.Scalar
import LinearOpt.Decimal.Numeral
import LinearOpt.Decimal.Shortest
import LinearOpt.Decimal.Positional

/-!
# Binary floating point

Doubles with an absolute tolerance: `a` is less than `b` only if it is less by more than a
billionth. No operation faults. The text of a finite value is its shortest decimal in positional
notation; a zero keeps its sign.
-/

namespace LinearOpt

namespace Binary64

/-- Values no further apart than this are not told apart by a decision. -/
def tolerance : Float := 1e-9

/-- Whether the value is neither infinite nor a NaN: `x - x` is a NaN for those. -/
def isFinite (x : Float) : Bool := x - x == 0

/-- Whether the sign bit is set. -/
def isNegative (x : Float) : Bool := x.toBits >>> 63 == 1

/-- The interval of reals that round to a positive finite double. Of its bits, the low 52 are the
mantissa, and 11 are the exponent, which is zero for numbers without an implicit leading bit. -/
def intervalOf (x : Float) : Decimal.Interval :=
  let exponent := (x.toBits >>> 52 &&& 0x7ff).toNat
  let mantissa := (x.toBits &&& 0xfffffffffffff).toNat
  if exponent = 0 then .around mantissa (-1074) false
  else .around (mantissa + 0x10000000000000) ((exponent : Int) - 1075)
    (mantissa == 0 && exponent != 1)

/-- The text of a finite positive double. -/
def positiveText (x : Float) : String :=
  let (digits, power) := (intervalOf x).shortest
  Decimal.positional digits power

def text (x : Float) : String :=
  if x != x then "NaN"
  else if x == 0 then (if isNegative x then "-0" else "0")
  else if !isFinite x then (if isNegative x then "-inf" else "inf")
  else if isNegative x then "-" ++ positiveText (-x)
  else positiveText x

/-- The double nearest to a decimal. Beyond 400 places the result is an infinity or a zero, so the
power is cut there. -/
def ofScientific (s : Decimal.Scientific) : Float :=
  let places : Int := (toString s.digits).length
  let size : Float :=
    if s.digits = 0 ∨ s.exponent + places < -400 then 0
    else if s.exponent + places > 400 then 1 / 0
    else Float.ofScientific s.digits (s.exponent < 0) s.exponent.natAbs
  if s.negative then -size else size

/-- The values without digits, in any case of letters. -/
def special? (word : String) : Option Float :=
  match word.toLower with
  | "inf" => some (1 / 0)
  | "infinity" => some (1 / 0)
  | "nan" => some (0 / 0)
  | _ => none

def read? (text : String) : Option Float :=
  let unsigned? : Option Float :=
    match text.toList with
    | '-' :: rest => (special? (String.ofList rest)).map fun x => -x
    | '+' :: rest => special? (String.ofList rest)
    | _ => special? text
  unsigned? <|> (Decimal.Scientific.ofChars? text.toList).map ofScientific

end Binary64

instance : Scalar Float where
  zero := 0
  one := 1
  add a b := .ok (a + b)
  sub a b := .ok (a - b)
  mul a b := .ok (a * b)
  div a b := .ok (a / b)
  neg a := .ok (-a)
  lt a b := a < b - Binary64.tolerance
  eq a b := a == b
  isFinite := Binary64.isFinite
  exact := false
  text := Binary64.text

instance : Numeral Float where
  read? text := (Binary64.read? text).map .ok

end LinearOpt

/-!
# Positional decimals

The text of `digits * 10 ^ power` without an exponent: zeros fill the places up to the point on
either side. A whole number has no point.
-/

namespace LinearOpt.Decimal

/-- A run of zeros. -/
def zeros (n : Nat) : String := String.ofList (List.replicate n '0')

/-- The text of `digits * 10 ^ power`. -/
def positional (digits : Nat) (power : Int) : String :=
  let written := (toString digits).toList
  let places := (-power).toNat
  if places = 0 then String.ofList written ++ zeros power.toNat
  else
    let whole := written.length - places
    let front := if whole = 0 then "0" else String.ofList (written.take whole)
    front ++ "." ++ zeros (places - written.length) ++ String.ofList (written.drop whole)

end LinearOpt.Decimal

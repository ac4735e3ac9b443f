/-!
# The shortest decimal of a binary fraction

A positive binary float is `mantissa * 2 ^ exponent`. All reals between the midpoints to its two
neighbours round to it, the midpoints themselves iff the mantissa is even. `shortest` gives the
decimal `digits * 10 ^ power` in that interval with the largest power, hence with the fewest
digits, and of two such decimals the nearer; a tie goes up.

The search descends through the powers. On each grid only the two neighbours of the value need a
look: if any point of the grid lies in the interval, so does one of them.
-/

namespace LinearOpt.Decimal

/-- A positive binary fraction and the interval of reals that round to it, in units of
`2 ^ unit`. -/
structure Interval where
  low : Nat
  value : Nat
  high : Nat
  unit : Int
  /-- Whether the ends belong to the interval. -/
  closed : Bool

namespace Interval

/-- The interval around `mantissa * 2 ^ exponent`. Below a power of two the neighbour is only half
as far away, which `narrow` says. -/
def around (mantissa : Nat) (exponent : Int) (narrow : Bool) : Interval where
  low := 4 * mantissa - (if narrow then 1 else 2)
  value := 4 * mantissa
  high := 4 * mantissa + 2
  unit := exponent - 2
  closed := mantissa % 2 == 0

/-- The factor from multiples of `10 ^ power` to multiples of `2 ^ unit`, as a fraction. -/
def scale (i : Interval) (power : Int) : Nat × Nat :=
  (Nat.pow 10 power.toNat * Nat.pow 2 (-i.unit).toNat,
    Nat.pow 10 (-power).toNat * Nat.pow 2 i.unit.toNat)

/-- The multiple of `10 ^ power` in the interval that is nearest to the value, if there is one. -/
def onGrid? (i : Interval) (power : Int) : Option Nat :=
  let (up, down) := i.scale power
  let low := i.low * down
  let value := i.value * down
  let high := i.high * down
  let inside (x : Nat) : Bool := if i.closed then low ≤ x && x ≤ high else low < x && x < high
  let below := value / up
  match inside (below * up), inside ((below + 1) * up) with
  | true, true =>
      some (if value - below * up < (below + 1) * up - value then below else below + 1)
  | true, false => some below
  | false, true => some (below + 1)
  | false, false => none

/-- The first grid, from `power` downwards, with a point in the interval. -/
def search (i : Interval) : Nat → Int → Nat × Int
  | 0, power => (0, power)
  | steps + 1, power =>
      match i.onGrid? power with
      | some digits => (digits, power)
      | none => i.search steps (power - 1)

/-- A power of ten above the value, which is less than two to the number of its binary digits. The
decimal logarithm of two is `30103` hundred thousandths, up to an error that the two powers added
cover for all exponents of a double. -/
def topPower (i : Interval) : Int :=
  (((i.high.log2 : Int) + 1 + i.unit) * 30103) / 100000 + 2

/-- Digits and power of ten of the shortest decimal in the interval. A binary float of 53 bits
needs at most 17 digits, and `topPower` is at most three too high. -/
def shortest (i : Interval) : Nat × Int := i.search 24 i.topPower

end Interval

end LinearOpt.Decimal

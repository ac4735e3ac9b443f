import LinearOpt.Scalar.Exact

/-!
# Rationals of bounded size

A `Bounded w` is a rational whose numerator and denominator in lowest terms are signed words of
width `w`. An operation forms its result through words of that width as well, and faults as soon as
one of them does not fit. So a result, where there is one, is the exact result.

The intermediate words are: for sums of unlike fractions the least common denominator, the two
expanded numerators and their sum; for products and quotients the numerators and denominators after
cancelling crosswise.
-/

namespace LinearOpt

/-- Sizes of signed words. -/
inductive Width where
  | w32
  | w64
  | w128
  deriving DecidableEq

namespace Width

/-- The first number that is too large. -/
def limit : Width → Int
  | w32 => 2147483648
  | w64 => 9223372036854775808
  | w128 => 170141183460469231731687303715884105728

/-- Words of width `w` reach from `-limit` up to but not including `limit`. -/
def Holds (w : Width) (z : Int) : Prop := -w.limit ≤ z ∧ z < w.limit

instance (w : Width) (z : Int) : Decidable (w.Holds z) :=
  inferInstanceAs (Decidable (-w.limit ≤ z ∧ z < w.limit))

/-- A word, or a fault if the number does not fit. -/
def word (w : Width) (z : Int) : Except Fault Int :=
  if w.Holds z then .ok z else .error .overflow

theorem holds_zero (w : Width) : w.Holds 0 := by cases w <;> decide

theorem holds_one (w : Width) : w.Holds 1 := by cases w <;> decide

end Width

/-- A rational whose lowest terms are words of width `w`. -/
structure Bounded (w : Width) where
  val : Rat
  num_holds : w.Holds val.num
  den_holds : w.Holds val.den
  deriving DecidableEq

namespace Bounded

variable {w : Width}

/-- The rational itself, if it fits. -/
def ofRat (x : Rat) : Except Fault (Bounded w) :=
  if h : w.Holds x.num ∧ w.Holds x.den then .ok ⟨x, h.1, h.2⟩ else .error .overflow

/-- The fraction `n / d` in lowest terms. -/
def ofFraction (n d : Int) : Except Fault (Bounded w) := do
  ofRat (← Exact.ofFraction n d)

def zero : Bounded w := ⟨0, w.holds_zero, w.holds_one⟩

def one : Bounded w := ⟨1, w.holds_one, w.holds_one⟩

/-- Adds or subtracts, as `op` does with numerators over a common denominator. -/
def combine (op : Int → Int → Int) (a b : Bounded w) : Except Fault (Bounded w) := do
  let x := a.val
  let y := b.val
  if x.den = y.den then
    ofFraction (← w.word (op x.num y.num)) x.den
  else
    let common ← w.word (Nat.lcm x.den y.den)
    let left ← w.word (x.num * (common / x.den))
    let right ← w.word (y.num * (common / y.den))
    ofFraction (← w.word (op left right)) common

def add (a b : Bounded w) : Except Fault (Bounded w) := combine (· + ·) a b

def sub (a b : Bounded w) : Except Fault (Bounded w) := combine (· - ·) a b

def mul (a b : Bounded w) : Except Fault (Bounded w) := do
  let x := a.val
  let y := b.val
  let g : Int := Int.gcd x.num y.den
  let h : Int := Int.gcd x.den y.num
  let n ← w.word (x.num / g * (y.num / h))
  let d ← w.word (x.den / h * (y.den / g))
  ofFraction n d

def div (a b : Bounded w) : Except Fault (Bounded w) := do
  let x := a.val
  let y := b.val
  let g ← w.word (Int.gcd x.num y.num)
  let h : Int := Nat.gcd x.den y.den
  let n ← w.word (x.num / g * (y.den / h))
  let d ← w.word (x.den / h * (y.num / g))
  ofFraction n d

def neg (a : Bounded w) : Except Fault (Bounded w) := ofRat (-a.val)

end Bounded

instance (w : Width) : Scalar (Bounded w) where
  zero := Bounded.zero
  one := Bounded.one
  add := Bounded.add
  sub := Bounded.sub
  mul := Bounded.mul
  div := Bounded.div
  neg := Bounded.neg
  lt a b := decide (a.val < b.val)
  eq a b := decide (a.val = b.val)
  isFinite _ := true
  exact := true
  text a := Exact.text a.val

instance (w : Width) : Numeral (Bounded w) where
  read? text := do
    let (n, d) ← Decimal.fraction? text.toList
    if d = 0 ∨ ¬ w.Holds n ∨ ¬ w.Holds d then none
    return Bounded.ofFraction n d

end LinearOpt

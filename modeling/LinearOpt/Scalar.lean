import LinearOpt.Failure

/-!
# Number types

Problems are stated and solved over any `Scalar`: a type with the four operations, in which an
operation may fault, and a strict comparison on which all decisions rest. Exact types compare
exactly; rounded types may treat values that are close as equal.

`sumProducts` and `dot` fix the order of evaluation: from zero, left to right. For rounded types
the order is part of the value.
-/

namespace LinearOpt

/-- A number type that linear programs can be stated over. -/
class Scalar (F : Type) where
  zero : F
  one : F
  add : F → F → Except Fault F
  sub : F → F → Except Fault F
  mul : F → F → Except Fault F
  div : F → F → Except Fault F
  neg : F → Except Fault F
  /-- The strict comparison that decisions are made with. -/
  lt : F → F → Bool
  /-- Equality without any tolerance. -/
  eq : F → F → Bool
  /-- Whether the value stands for a finite number. -/
  isFinite : F → Bool
  /-- Whether computations are free of rounding errors. -/
  exact : Bool
  /-- The text of a value. -/
  text : F → String

namespace Scalar

variable {F : Type} [Scalar F]

/-- Equal to zero, without any tolerance. -/
def isZero (x : F) : Bool := eq x zero

/-- Different from zero, in the comparison that decisions are made with. -/
def nonzero (x : F) : Bool := lt x zero || lt zero x

/-- The sum of the products of pairs, added up from zero and from left to right. -/
def sumProducts (pairs : List (F × F)) : Except Fault F :=
  pairs.foldlM (fun total pair => do add total (← mul pair.1 pair.2)) zero

/-- Inner product of two lists of the same length. -/
def dot (left right : List F) : Except Fault F := do
  require (left.length == right.length)
  sumProducts (left.zip right)

end Scalar

/-- Number types whose values can be made from fractions or read from text. -/
class Numeral (F : Type) where
  /-- The number that a text stands for, `none` if the text is not a numeral of this type. -/
  read? : String → Option (Except Fault F)

end LinearOpt

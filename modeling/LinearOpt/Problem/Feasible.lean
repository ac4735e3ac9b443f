import LinearOpt.Problem.Basic

/-!
# Evaluating solutions

The cost of a vector, the activity of a constraint, and whether a vector satisfies all bounds. A
`Solution` is a vector with its cost.
-/

namespace LinearOpt

variable {F : Type} [Scalar F]

namespace Problem

/-- The cost of `x`. There is no constant term. -/
def objectiveValue (p : Problem F) (x : List F) : Except Failure F := do
  p.checkSolution x
  Scalar.dot p.cost x

/-- The coefficients of constraint `i` beside the values of their variables. -/
def rowTerms (p : Problem F) (i : Nat) (x : List F) : Except Fault (List (F × F)) :=
  (p.row i).mapM fun (j, value) => return (value, ← fetch x j)

/-- The value of the linear form of constraint `i` at `x`. -/
def activity (p : Problem F) (i : Nat) (x : List F) : Except Failure F := do
  p.checkConstraint i
  p.checkSolution x
  let terms ← p.rowTerms i x
  Scalar.sumProducts terms

/-- Whether the given constraints, by position, hold at `x`. Stops at the first that does not. -/
def satisfies (p : Problem F) (x : List F) : List (Bounds F × Nat) → Except Failure Bool
  | [] => return true
  | (bounds, i) :: rest => do
      if bounds.admits (← p.activity i x) then p.satisfies x rest else return false

/-- Whether `x` satisfies all bounds, up to the tolerance of the number type. -/
def isFeasible (p : Problem F) (x : List F) : Except Failure Bool := do
  p.checkSolution x
  if (p.variableBounds.zip x).all fun (bounds, value) => bounds.admits value then
    p.satisfies x p.constraintBounds.zipIdx
  else return false

end Problem

/-- A vector with its cost in a problem. -/
structure Solution (F : Type) where
  objectiveValue : F
  values : List F
  deriving DecidableEq

namespace Solution

def of (p : Problem F) (values : List F) : Except Failure (Solution F) := do
  return { objectiveValue := ← p.objectiveValue values, values }

end Solution

end LinearOpt

import LinearOpt.Mps.Document
import LinearOpt.Problem.Edit

/-!
# Problems as documents

The rows, columns and bounds of a problem as a `Document`. Only rounded number types can be written:
a fraction has no decimal text of its own. A row is named by its lower bound where it has one; the
upper bound of a row with two different bounds goes into its range.
-/

namespace LinearOpt

variable {F : Type} [Scalar F]

namespace Bounds

open Mps

/-- The type of a row with these bounds. -/
def rowType (b : Bounds F) : RowType :=
  if b.isEquality then .equal
  else if b.lower.isSome then .atLeast
  else .atMost

/-- The lines that set these bounds for column `j`. -/
def lines (b : Bounds F) (j : Nat) : List (Bound F) :=
  match b.lower, b.upper with
  | none, none => [.free j]
  | none, some upper => [.unboundedBelow j, .upper j upper]
  | some lower, upper =>
      if b.isEquality then [.fixed j lower]
      else
        (if Scalar.isZero lower then [] else [.lower j lower]) ++
        (upper.map (Bound.upper j)).toList

/-- The width of row `i`, if it has two different bounds. -/
def range? (b : Bounds F) (i : Nat) : Except Fault (Option (Nat × F)) :=
  match b.lower, b.upper with
  | some lower, some upper =>
      if b.isRange then do return some (i, ← Scalar.sub upper lower) else return none
  | _, _ => return none

end Bounds

namespace Problem

open Mps

/-- The cost of variable `j` and its coefficients, ordered by constraint. -/
def elements (p : Problem F) (j : Nat) (cost : F) : List (Element F) :=
  .cost j cost ::
    ((p.column j).mergeSort fun a b => a.1 ≤ b.1).map fun (i, value) => .coefficient j i value

/-- The problem as a document. -/
def toMps (p : Problem F) : Except Failure (Document F) := do
  if Scalar.exact F then
    throw (.refused (.unsupported .exactMps))
  p.checkDimensions
  let ranges ← p.constraintBounds.zipIdx.mapM fun (b, i) => b.range? i
  return {
    maximize := p.objective == .maximize
    rows := p.constraintBounds.zipIdx.map fun (b, i) => (i, b.rowType)
    columns := p.cost.zipIdx.flatMap fun (cost, j) => p.elements j cost
    rhs := p.constraintBounds.zipIdx.filterMap fun (b, i) =>
      (b.lower.or b.upper).map fun value => (i, value)
    ranges := ranges.filterMap id
    bounds := p.variableBounds.zipIdx.flatMap fun (b, j) => b.lines j }

end Problem

end LinearOpt

import LinearOpt.Problem.Edit

/-!
# Problems from matrices

A dense matrix, a right-hand side, a cost for each column and a relation for each row make a
problem. Coefficients that are zero are not stored.
-/

namespace LinearOpt

/-- How a row of a matrix stands to its right-hand side. -/
inductive Relation where
  | atMost
  | equal
  | atLeast
  deriving DecidableEq

namespace Relation

def text : Relation → String
  | atMost => "<="
  | equal => "="
  | atLeast => ">="

/-- Rows for which no relation is given are upper bounded. -/
instance : Inhabited Relation := ⟨atMost⟩

/-- The bounds that say the same. -/
def bounds {F : Type} (relation : Relation) (rhs : F) : Bounds F :=
  match relation with
  | atMost => ⟨none, some rhs⟩
  | equal => ⟨some rhs, some rhs⟩
  | atLeast => ⟨some rhs, none⟩

end Relation

namespace Problem

variable {F : Type} [Scalar F]

/-- As many rows as right-hand sides, as many columns as costs, and no relation without a row. -/
def checkShape (a : List (List F)) (b c : List F) (relations : List Relation) :
    Except ProblemError Unit := do
  if a.length ≠ b.length then
    throw (.dimensionMismatch (.matrixRows a.length b.length))
  match a.zipIdx.find? (·.1.length ≠ c.length) with
  | some (row, i) => throw (.dimensionMismatch (.matrixColumns i row.length c.length))
  | none => pure ()
  if a.length < relations.length then
    throw (.dimensionMismatch (.relations relations.length a.length))

/-- Sets the coefficients of row `i` from column `j` on. -/
def fillRow (i : Nat) : Nat → List F → Edit (Problem F) Unit
  | _, [] => pure ()
  | j, value :: values => do
      if !Scalar.isZero value then
        setCoefficient i j value false
      fillRow i (j + 1) values

/-- Appends a constraint for each row. -/
def appendRows : List (List F × F) → List Relation → Edit (Problem F) Unit
  | [], _ => pure ()
  | (row, rhs) :: rows, relations => do
      let i ← addConstraint ((relations.head?.getD default).bounds rhs)
      fillRow i 0 row
      appendRows rows relations.tail

/-- The problem of optimising `c` subject to the rows of `a` standing in their relations to `b`. -/
def ofMatrix (objective : Objective) (nonNegative : Bool) (a : List (List F)) (b c : List F)
    (relations : List Relation) : Except Failure (Problem F) := do
  checkShape a b c relations
  let start : Problem F :=
    { objective
      nonNegativeDefault := nonNegative
      cost := c
      variableBounds := c.map fun _ => if nonNegative then .nonnegative else .free }
  match appendRows (a.zip b) relations start with
  | .ok _ p => return p
  | .error e _ => throw e

end Problem

end LinearOpt

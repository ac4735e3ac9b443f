import LinearOpt.Event

/-!
# The simplex tableau

A tableau minimises a cost over `A x = b`, `x ≥ 0` from one basis to the next. Beside the columns of
`A` there is an artificial unit column for each row, after the columns of `A`; artificial columns
are not stored. A `BasisRow` holds what belongs to one row of the basis: the basic column, its cost
in the current phase, the row of the inverse of the basis matrix, and the value of the basic
variable.

In phase one the sum of the artificial variables is minimised, in phase two the cost of the problem.
-/

namespace LinearOpt

/-- One row of the basis. -/
structure BasisRow (F : Type) where
  /-- The basic column. -/
  column : Nat
  /-- Cost of the basic column in the current phase. -/
  cost : F
  /-- The row of the inverse of the basis matrix. -/
  inverse : List F
  /-- Value of the basic variable. -/
  value : F
  deriving DecidableEq

structure Tableau (F : Type) where
  phase : Phase
  /-- Rows of the constraint matrix, without the artificial columns. -/
  matrix : List (List F)
  /-- Cost of each column of the constraint matrix. -/
  cost : List F
  rows : List (BasisRow F)
  /-- Whether each column, the artificial ones included, is in the basis. -/
  basic : List Bool
  deriving DecidableEq

namespace Tableau

variable {F : Type} [Scalar F]

/-! ## Sizes -/

def rowCount (t : Tableau F) : Nat := t.rows.length

/-- Number of columns of the constraint matrix. These may enter the basis; an artificial column
that has left stays out. -/
def realColumnCount (t : Tableau F) : Nat := t.cost.length

/-- Number of columns, the artificial ones included. -/
def columnCount (t : Tableau F) : Nat := t.basic.length

/-! ## The first basis -/

/-- Element `i` of the unit vector at `k`. -/
def unit (k i : Nat) : F := if i = k then Scalar.one else Scalar.zero

/-- A tableau in phase one whose basis is the artificial columns. -/
def start (matrix : List (List F)) (b cost : List F) : Except Fault (Tableau F) := do
  let m := b.length
  let n := cost.length
  require (matrix.length == m)
  require (matrix.all fun row => row.length == n)
  require (b.all fun value => !Scalar.lt value Scalar.zero)
  return {
    phase := .one
    matrix
    cost
    rows := b.zipIdx.map fun (value, i) =>
      { column := n + i
        cost := Scalar.one
        inverse := (List.range m).map fun k => unit i k
        value }
    basic := List.replicate n false ++ List.replicate m true }

/-! ## Columns -/

/-- Cost of a column in the current phase. -/
def phaseCost (t : Tableau F) (j : Nat) : F :=
  match t.phase, t.cost[j]? with
  | .one, some _ => Scalar.zero
  | .one, none => Scalar.one
  | .two, some cost => cost
  | .two, none => Scalar.zero

/-- Column `j` of the constraint matrix with the artificial columns behind it. -/
def extendedColumn (t : Tableau F) (j : Nat) : Except Fault (List F) := do
  require (j < t.columnCount)
  if j < t.realColumnCount then
    t.matrix.mapM fun row => fetch row j
  else
    return (List.range t.rowCount).map fun i => unit (j - t.realColumnCount) i

/-- Column `j` with respect to the current basis. -/
def generateColumn (t : Tableau F) (j : Nat) : Except Fault (List F) := do
  let column ← t.extendedColumn j
  t.rows.mapM fun row => Scalar.dot row.inverse column

/-- One element of column `j` with respect to the current basis. -/
def generateElement (t : Tableau F) (i j : Nat) : Except Fault F := do
  let row ← fetch t.rows i
  Scalar.dot row.inverse (← t.extendedColumn j)

/-- Whether column `j` is in the basis. -/
def isBasic (t : Tableau F) (j : Nat) : Except Fault Bool := fetch t.basic j

/-- The basic column of a row. -/
def basicColumn (t : Tableau F) (i : Nat) : Except Fault Nat := do
  return (← fetch t.rows i).column

/-- The columns in the basis, in increasing order. -/
def basicColumns (t : Tableau F) : List Nat :=
  (List.range t.columnCount).filter fun j => t.basic.getD j false

/-! ## Costs -/

/-- The dual value of each constraint: the costs of the basis times its inverse. -/
def dualValues (t : Tableau F) : Except Fault (List F) :=
  (List.range t.rowCount).mapM fun k => do
    let terms ← t.rows.mapM fun row => return (row.cost, ← fetch row.inverse k)
    Scalar.sumProducts terms

/-- Change of the cost per unit of column `j`, given the dual values of the basis. -/
def relativeCost (t : Tableau F) (j : Nat) (duals : List F) : Except Fault F := do
  let priced ← Scalar.dot duals (← t.extendedColumn j)
  Scalar.sub (t.phaseCost j) priced

/-- Cost of the basic solution in the current phase. -/
def objectiveValue (t : Tableau F) : Except Fault F :=
  Scalar.dot (t.rows.map (·.cost)) (t.rows.map (·.value))

/-! ## The basic solution -/

/-- Value of each variable that is not artificial. -/
def basicSolution (t : Tableau F) : List F :=
  (List.range t.realColumnCount).map fun j =>
    match t.rows.find? (·.column == j) with
    | some row => row.value
    | none => Scalar.zero

/-- Rows whose basic variable is artificial, in increasing order. -/
def artificialRows (t : Tableau F) : List Nat :=
  (t.rows.zipIdx.filter fun (row, _) => t.realColumnCount ≤ row.column).map fun (_, i) => i

/-- Whether an artificial variable has a positive value. -/
def hasPositiveArtificial (t : Tableau F) : Bool :=
  t.rows.any fun row => t.realColumnCount ≤ row.column && Scalar.lt Scalar.zero row.value

/-- The basic solution is nonnegative, and the marks agree with the basic columns. -/
def isFeasibleBasis (t : Tableau F) : Bool :=
  t.rows.all (fun row => !Scalar.lt row.value Scalar.zero) &&
  (t.basic.count true == t.rowCount) &&
  t.rows.all (fun row => t.basic.getD row.column false)

end Tableau

end LinearOpt

import LinearOpt.Scalar
import Std.Data.HashMap

/-!
# Linear programs

A `Problem` asks for the least or the greatest value of a linear cost over all vectors `x` with

* `lower j ≤ x j ≤ upper j` for every variable `j`, and
* `lower i ≤ Σ j, a i j * x j ≤ upper i` for every constraint `i`.

Any bound may be absent, except that a constraint keeps at least one. Variables and constraints are
known by their position. The coefficients `a i j` that were set are a list of entries in the order
they were created, with an index from the pair `(i, j)` to the position of its entry.

Here are the types and the views `coefficient?`, `row` and `column`; `Problem.Edit` builds
problems and `Problem.Feasible` evaluates them.
-/

namespace LinearOpt

/-- Direction of optimisation. -/
inductive Objective where
  | minimize
  | maximize
  deriving DecidableEq

namespace Objective

def text : Objective → String
  | minimize => "min"
  | maximize => "max"

instance : Inhabited Objective := ⟨minimize⟩

end Objective

/-- A lower and an upper bound, `none` where there is none. -/
structure Bounds (F : Type) where
  lower : Option F
  upper : Option F
  deriving DecidableEq

namespace Bounds

variable {F : Type} [Scalar F]

/-- No bound in either direction. -/
def free : Bounds F := ⟨none, none⟩

/-- From zero upwards. -/
def nonnegative : Bounds F := ⟨some Scalar.zero, none⟩

/-- A bound that is not a finite number is no bound. -/
def finite (b : Bounds F) : Bounds F :=
  ⟨b.lower.filter Scalar.isFinite, b.upper.filter Scalar.isFinite⟩

/-- Whether a value is within the bounds, up to the tolerance of the number type. -/
def admits (b : Bounds F) (x : F) : Bool :=
  (match b.lower with
    | some lower => !Scalar.lt x lower
    | none => true) &&
  (match b.upper with
    | some upper => !Scalar.lt upper x
    | none => true)

/-- Both bounds are present and equal. -/
def isEquality (b : Bounds F) : Bool :=
  match b.lower, b.upper with
  | some lower, some upper => Scalar.eq lower upper
  | _, _ => false

/-- Both bounds are present and differ. -/
def isRange (b : Bounds F) : Bool :=
  match b.lower, b.upper with
  | some lower, some upper => !Scalar.eq lower upper
  | _, _ => false

end Bounds

/-- The coefficient `value` in row `row` and column `column` of the constraint matrix. -/
structure Entry (F : Type) where
  row : Nat
  column : Nat
  value : F
  deriving DecidableEq

/-- A linear program. -/
structure Problem (F : Type) where
  objective : Objective
  /-- Whether variables that come from a matrix are nonnegative; else they are free. -/
  nonNegativeDefault : Bool := true
  /-- Cost of each variable. -/
  cost : List F := []
  /-- Bounds of each variable. -/
  variableBounds : List (Bounds F) := []
  /-- Bounds of each constraint. -/
  constraintBounds : List (Bounds F) := []
  /-- The coefficients that were set, in order of creation. -/
  entries : List (Entry F) := []
  /-- The position in `entries` of each pair of a row and a column. -/
  index : Std.HashMap (Nat × Nat) Nat := ∅
  /-- Whether the problem was brought into canonical form. -/
  transformed : Bool := false

namespace Problem

variable {F : Type}

/-- The problem without variables and constraints. -/
def empty (objective : Objective) : Problem F := { objective }

def variableCount (p : Problem F) : Nat := p.cost.length

def constraintCount (p : Problem F) : Nat := p.constraintBounds.length

/-- The coefficient in row `i` and column `j`, if it was set. -/
def coefficient? (p : Problem F) (i j : Nat) : Except Fault (Option F) :=
  match p.index[(i, j)]? with
  | some position => do return some (← fetch p.entries position).value
  | none => return none

/-- The coefficients of constraint `i` with their variables, in order of creation. -/
def row (p : Problem F) (i : Nat) : List (Nat × F) :=
  (p.entries.filter (·.row == i)).map fun e => (e.column, e.value)

/-- The coefficients of variable `j` with their constraints, in order of creation. -/
def column (p : Problem F) (j : Nat) : List (Nat × F) :=
  (p.entries.filter (·.column == j)).map fun e => (e.row, e.value)

/-! ## Checks -/

def checkVariable (p : Problem F) (j : Nat) : Except ProblemError Unit :=
  if j < p.variableCount then .ok ()
  else .error (.dimensionMismatch (.noVariable j p.variableCount))

def checkConstraint (p : Problem F) (i : Nat) : Except ProblemError Unit :=
  if i < p.constraintCount then .ok ()
  else .error (.dimensionMismatch (.noConstraint i p.constraintCount))

/-- One value for each variable. -/
def checkSolution (p : Problem F) (x : List F) : Except ProblemError Unit :=
  if x.length = p.variableCount then .ok ()
  else .error (.dimensionMismatch (.solution x.length p.variableCount))

/-- The sizes of all parts agree, and every entry belongs to a variable and a constraint. -/
def checkDimensions (p : Problem F) : Except ProblemError Unit := do
  if p.cost.length ≠ p.variableBounds.length then
    throw (.dimensionMismatch (.costs p.cost.length p.variableBounds.length))
  if p.index.size ≠ p.entries.length then
    throw (.dimensionMismatch (.indexSize p.index.size p.entries.length))
  p.entries.forM fun e => do
    p.checkConstraint e.row
    p.checkVariable e.column

end Problem

end LinearOpt

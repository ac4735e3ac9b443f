import LinearOpt.Tableau.Basic

/-!
# Choosing and making pivots

`selectColumn` takes the first column with a negative relative cost, `selectRow` the first row of
least ratio, and `pivot` exchanges the basic column of a row. The first column and the first row
make the method deterministic; they do not keep it from cycling.
-/

namespace LinearOpt

variable {F : Type} [Scalar F]

namespace BasisRow

/-- Inverse and value divided by a number. -/
def dividedBy (row : BasisRow F) (divisor : F) : Except Fault (BasisRow F) := do
  let inverse ← row.inverse.mapM fun x => Scalar.div x divisor
  let value ← Scalar.div row.value divisor
  return { row with inverse, value }

/-- Inverse and value with a multiple of another row subtracted. -/
def minus (row : BasisRow F) (factor : F) (other : BasisRow F) : Except Fault (BasisRow F) := do
  let inverse ← (row.inverse.zip other.inverse).mapM fun (x, y) => do
    Scalar.sub x (← Scalar.mul factor y)
  let value ← Scalar.sub row.value (← Scalar.mul factor other.value)
  return { row with inverse, value }

end BasisRow

namespace Tableau

/-! ## Choosing a column -/

/-- The first of the given columns that is not basic and has a negative relative cost, with that
cost. Columns after it are not looked at. -/
def firstNegative (t : Tableau F) (duals : List F) : List Nat → Except Fault (Option (Nat × F))
  | [] => return none
  | j :: js => do
      if ← t.isBasic j then t.firstNegative duals js
      else
        let cost ← t.relativeCost j duals
        if Scalar.lt cost Scalar.zero then return some (j, cost) else t.firstNegative duals js

/-- The first column that lowers the cost, `none` if the basis is optimal. -/
def selectColumn (t : Tableau F) : Except Fault (Option (Nat × F)) := do
  let duals ← t.dualValues
  t.firstNegative duals (List.range t.realColumnCount)

/-! ## Choosing a row -/

/-- The better of the least ratio so far and that of row `i`, if row `i` has a positive
coefficient. An equal ratio is not better. -/
def betterRatio (best : Option (Nat × F)) (i : Nat) (value coefficient : F) :
    Except Fault (Option (Nat × F)) := do
  if Scalar.lt Scalar.zero coefficient then
    let ratio ← Scalar.div value coefficient
    match best with
    | none => return some (i, ratio)
    | some (_, least) => return if Scalar.lt ratio least then some (i, ratio) else best
  else return best

/-- The first row of least ratio between its value and its coefficient, among the rows with a
positive coefficient. -/
def selectRow (t : Tableau F) (coefficients : List F) : Except Fault (Option Nat) := do
  require (coefficients.length == t.rowCount)
  let best ← (t.rows.zip coefficients).zipIdx.foldlM
    (fun best ((row, coefficient), i) => betterRatio best i row.value coefficient) none
  return best.map fun (i, _) => i

/-! ## The exchange -/

/-- Brings column `j` into the basis in row `r`. The coefficients are those of column `j` with
respect to the basis; that of row `r` must not be zero, and column `j` must not be basic. -/
def pivot (t : Tableau F) (j r : Nat) (coefficients : List F) : Except Fault (Tableau F) := do
  require (j < t.columnCount)
  require !(← t.isBasic j)
  let divisor ← fetch coefficients r
  require (Scalar.nonzero divisor)
  let leaving ← fetch t.rows r
  let divided ← leaving.dividedBy divisor
  let entering := { divided with column := j, cost := t.phaseCost j }
  let rows ← t.rows.zipIdx.mapM fun (row, i) =>
    if i = r then pure entering
    else
      match coefficients[i]? with
      | none => pure row
      | some factor => if Scalar.isZero factor then pure row else row.minus factor entering
  if (coefficients.drop t.rowCount).all Scalar.isZero then
    let unmarked ← update t.basic leaving.column fun _ => .ok false
    return { t with rows, basic := unmarked.set j true }
  else throw .index

/-- Exchanges the artificial cost for the cost of the problem. -/
def startPhaseTwo (t : Tableau F) : Except Fault (Tableau F) := do
  require (t.phase == .one)
  let later := { t with phase := .two }
  return { later with rows := t.rows.map fun row => { row with cost := later.phaseCost row.column } }

/-! ## The next step -/

/-- What the simplex method does next. -/
inductive Step (F : Type) where
  /-- No column lowers the cost. -/
  | optimal
  /-- Column `column` lowers the cost without end. -/
  | unbounded (column : Nat) (relativeCost : F)
  | pivot (column : Nat) (relativeCost : F) (row : Nat) (coefficients : List F)
  deriving DecidableEq

/-- Chooses a column, and a row for it. -/
def nextStep (t : Tableau F) : Except Fault (Step F) := do
  match ← t.selectColumn with
  | none => return .optimal
  | some (j, cost) =>
      let coefficients ← t.generateColumn j
      match ← t.selectRow coefficients with
      | none => return .unbounded j cost
      | some r => return .pivot j cost r coefficients

end Tableau

end LinearOpt

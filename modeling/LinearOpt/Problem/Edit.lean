import LinearOpt.Problem.Basic

/-!
# Building problems

Edits of a `Problem`. An edit that names a variable or a constraint checks first that it exists, so
a refused edit leaves the problem as it was. A pair of a constraint and a variable has at most one
coefficient: setting it again replaces it or adds to it.
-/

namespace LinearOpt.Problem

variable {F : Type} [Scalar F]

/-! ## Variables -/

/-- Appends `n` variables with the same bounds and no cost, and returns their positions. -/
def addVariables (n : Nat) (bounds : Bounds F) : Edit (Problem F) (List Nat) :=
  modifyGet fun p =>
    (List.range' p.variableCount n,
      { p with
        cost := p.cost ++ List.replicate n Scalar.zero
        variableBounds := p.variableBounds ++ List.replicate n bounds.finite })

/-- Appends a variable without cost and returns its position. -/
def addVariable (bounds : Bounds F) : Edit (Problem F) Nat := do
  let j := (← get).variableCount
  discard (addVariables 1 bounds)
  return j

/-- Appends `n` rows of `m` variables each, row by row. -/
def addVariableGrid (n m : Nat) (bounds : Bounds F) : Edit (Problem F) (List (List Nat)) :=
  (List.range n).mapM fun _ => addVariables m bounds

/-! ## Constraints and coefficients -/

/-- Appends a constraint without coefficients and returns its position. -/
def addConstraint (bounds : Bounds F) : Edit (Problem F) Nat := do
  let bounds := bounds.finite
  if bounds.lower.isNone && bounds.upper.isNone then
    throw (.refused .invalidConstraint)
  modifyGet fun p =>
    (p.constraintCount, { p with constraintBounds := p.constraintBounds ++ [bounds] })

/-- What a coefficient becomes when `value` is set, or added to it. -/
def merged (accumulate : Bool) (old value : F) : Except Fault F :=
  if accumulate then Scalar.add old value else .ok value

/-- Sets a coefficient without checking its position. -/
def insert (p : Problem F) (entry : Entry F) (accumulate : Bool) : Except Fault (Problem F) :=
  match p.index[(entry.row, entry.column)]? with
  | some position => do
      let entries ← update p.entries position fun old =>
        return { old with value := ← merged accumulate old.value entry.value }
      return { p with entries }
  | none =>
      return { p with
        entries := p.entries ++ [entry]
        index := p.index.insert (entry.row, entry.column) p.entries.length }

/-- Sets, or adds to, the coefficient of variable `j` in constraint `i`. -/
def setCoefficient (i j : Nat) (value : F) (accumulate : Bool) : Edit (Problem F) Unit := do
  let p ← get
  p.checkConstraint i
  p.checkVariable j
  set (← p.insert ⟨i, j, value⟩ accumulate)

/-- Sets, or adds to, the cost of variable `j`. -/
def setCost (j : Nat) (value : F) (accumulate : Bool) : Edit (Problem F) Unit := do
  let p ← get
  p.checkVariable j
  let cost ← update p.cost j fun old => merged accumulate old value
  set { p with cost }

/-! ## Options -/

def setObjective (objective : Objective) : Edit (Problem F) Unit :=
  modify fun p => { p with objective }

def setNonNegativeDefault (value : Bool) : Edit (Problem F) Unit :=
  modify fun p => { p with nonNegativeDefault := value }

/-- Removes all variables and constraints. The options stay. -/
def cleared (p : Problem F) : Problem F :=
  { empty p.objective with nonNegativeDefault := p.nonNegativeDefault }

end LinearOpt.Problem

import LinearOpt.Canonical.Recovery
import LinearOpt.Problem.Edit

/-!
# Bringing a problem into canonical form

A problem is canonical if it minimises, every variable ranges from zero upwards, and every
constraint is an equality with a nonnegative value. Five passes lead there:

* `minimized` turns the cost of a maximisation around;
* `normalizeVariables` splits a free variable into the difference of two nonnegative ones, reflects a
  variable that is only bounded from above, and shifts every other variable to start at zero. An
  upper bound beside a lower one becomes a constraint;
* `splitRanges` makes two constraints of one with two different bounds;
* `addSlacks` makes an equality of each inequality with a variable of its own;
* `withNonnegativeValues` negates the constraints with a negative value.

Variables come first, because that can add constraints. Each pass looks only at the
variables or constraints that are there when it starts.
-/

namespace LinearOpt

variable {F : Type} [Scalar F]

namespace Bounds

/-- Subtracts an amount from the bounds that are present. -/
def loweredBy (bounds : Bounds F) (amount : F) : Except Fault (Bounds F) := do
  let lower ← bounds.lower.mapM fun x => Scalar.sub x amount
  let upper ← bounds.upper.mapM fun x => Scalar.sub x amount
  return ⟨lower, upper⟩

/-- The bounds of the negated value. Negation swaps their roles. -/
def negated (bounds : Bounds F) : Except Fault (Bounds F) := do
  let lower ← bounds.upper.mapM Scalar.neg
  let upper ← bounds.lower.mapM Scalar.neg
  return ⟨lower, upper⟩

end Bounds

namespace Problem

/-! ## Direction -/

/-- The same problem as a minimisation. -/
def minimized (p : Problem F) : Except Fault (Problem F) :=
  match p.objective with
  | .minimize => return p
  | .maximize => do
      let cost ← p.cost.mapM Scalar.neg
      return { p with objective := .minimize, cost }

/-! ## Variables -/

/-- Appends a nonnegative variable with the given cost and column. -/
def appendColumn (p : Problem F) (cost : F) (column : List (Nat × F)) :
    Except Fault (Problem F) :=
  column.foldlM
    (fun q (i, value) => q.insert ⟨i, p.variableCount, value⟩ false)
    { p with
      cost := p.cost ++ [cost]
      variableBounds := p.variableBounds ++ [.nonnegative] }

/-- Moves the constant `value * x` of each coefficient of variable `j` to the bounds of its
constraint. -/
def moveConstant (p : Problem F) (j : Nat) (x : F) : Except Fault (Problem F) := do
  let constraintBounds ← (p.column j).foldlM
    (fun bounds (i, value) => do
      let amount ← Scalar.mul value x
      update bounds i fun b => b.loweredBy amount)
    p.constraintBounds
  return { p with constraintBounds }

/-- Negates the cost and the coefficients of variable `j`. -/
def negateColumn (p : Problem F) (j : Nat) : Except Fault (Problem F) := do
  let cost ← update p.cost j Scalar.neg
  let entries ← p.entries.mapM fun e =>
    if e.column == j then return { e with value := ← Scalar.neg e.value } else return e
  return { p with cost, entries }

/-- Writes a free variable as the difference of two nonnegative ones. It stays the first, and the
second is appended with the negated column. -/
def splitVariable (p : Problem F) (j : Nat) : Except Fault (Problem F × Recovery F) := do
  let column ← (p.column j).mapM fun (i, value) => return (i, ← Scalar.neg value)
  let cost ← Scalar.neg (← fetch p.cost j)
  let q ← p.appendColumn cost column
  return (q, { paired := some p.variableCount, scale := Scalar.one, offset := Scalar.zero })

/-- Writes a variable as `upper - x'`. -/
def reflectVariable (p : Problem F) (j : Nat) (upper : F) :
    Except Fault (Problem F × Recovery F) := do
  let moved ← p.moveConstant j upper
  let q ← moved.negateColumn j
  return (q, { paired := none, scale := ← Scalar.neg Scalar.one, offset := upper })

/-- Writes a variable as `x' + lower`. An upper bound becomes the constraint
`x' ≤ upper - lower`. -/
def shiftVariable (p : Problem F) (j : Nat) (lower : F) (upper : Option F) :
    Except Fault (Problem F × Recovery F) := do
  let moved ← if Scalar.isZero lower then pure p else p.moveConstant j lower
  let q ←
    match upper with
    | none => pure moved
    | some upper => do
        let bound : Bounds F := ⟨none, some (← Scalar.sub upper lower)⟩
        let bounded := { moved with constraintBounds := moved.constraintBounds ++ [bound] }
        bounded.insert ⟨moved.constraintCount, j, Scalar.one⟩ false
  return (q, { paired := none, scale := Scalar.one, offset := lower })

/-- Makes variable `j` range from zero upwards. -/
def normalizeVariable (p : Problem F) (j : Nat) : Except Fault (Problem F × Recovery F) := do
  let bounds ← fetch p.variableBounds j
  let q := { p with variableBounds := p.variableBounds.set j .nonnegative }
  match bounds.lower, bounds.upper with
  | none, none => q.splitVariable j
  | none, some upper => q.reflectVariable j upper
  | some lower, upper => q.shiftVariable j lower upper

/-- Makes the variables at the given positions range from zero upwards, in this order. -/
def normalizeEach (p : Problem F) : List Nat → Except Fault (Problem F × List (Recovery F))
  | [] => return (p, [])
  | j :: js => do
      let (q, recovery) ← p.normalizeVariable j
      let (q, recoveries) ← q.normalizeEach js
      return (q, recovery :: recoveries)

/-- Makes all variables range from zero upwards. -/
def normalizeVariables (p : Problem F) : Except Fault (Problem F × List (Recovery F)) :=
  p.normalizeEach (List.range p.variableCount)

/-! ## Constraints -/

/-- If constraint `i` has two different bounds, keeps the lower one and appends a copy of the
constraint with the upper one. Returns the number of constraints appended. -/
def splitRange (p : Problem F) (i : Nat) : Except Fault (Problem F × Nat) := do
  let bounds ← fetch p.constraintBounds i
  if bounds.isRange then
    let copy := p.constraintCount
    let constraintBounds :=
      p.constraintBounds.set i ⟨bounds.lower, none⟩ ++ [⟨none, bounds.upper⟩]
    let q ← (p.row i).foldlM
      (fun q (j, value) => q.insert ⟨copy, j, value⟩ false)
      { p with constraintBounds }
    return (q, 1)
  else
    return (p, 0)

/-- Splits the constraints at the given positions, in this order. -/
def splitEach (p : Problem F) : List Nat → Except Fault (Problem F × Nat)
  | [] => return (p, 0)
  | i :: is => do
      let (q, here) ← p.splitRange i
      let (q, later) ← q.splitEach is
      return (q, here + later)

/-- Splits all constraints with two different bounds. Returns how many there were. -/
def splitRanges (p : Problem F) : Except Fault (Problem F × Nat) :=
  p.splitEach (List.range p.constraintCount)

/-- Both bounds of constraint `i` become `value`, and a slack with the given coefficient is
appended. -/
def withSlack (p : Problem F) (i : Nat) (value coefficient : F) : Except Fault (Problem F) :=
  let q := { p with constraintBounds := p.constraintBounds.set i ⟨some value, some value⟩ }
  q.appendColumn Scalar.zero [(i, coefficient)]

/-- Makes an equality of constraint `i` with a slack that is added to an upper bounded form and
subtracted from a lower bounded one. Returns the number of slacks appended. -/
def addSlack (p : Problem F) (i : Nat) : Except Failure (Problem F × Nat) := do
  let bounds ← fetch p.constraintBounds i
  match bounds.lower, bounds.upper with
  | some _, some _ => return (p, 0)
  | none, some upper =>
      let q ← p.withSlack i upper Scalar.one
      return (q, 1)
  | some lower, none =>
      let q ← p.withSlack i lower (← Scalar.neg Scalar.one)
      return (q, 1)
  | none, none => throw (.refused .invalidConstraint)

/-- Makes equalities of the constraints at the given positions, in this order. A constraint without
bounds stops the pass, and the problem is returned as it was by then. -/
def slackEach (p : Problem F) : List Nat → Problem F × Except Failure Nat
  | [] => (p, .ok 0)
  | i :: is =>
      match p.addSlack i with
      | .error e => (p, .error e)
      | .ok (q, here) =>
          let (q, later) := q.slackEach is
          (q, later.map (here + ·))

/-- Makes equalities of all constraints. Returns the number of slacks. -/
def addSlacks (p : Problem F) : Problem F × Except Failure Nat :=
  p.slackEach (List.range p.constraintCount)

/-- Whether a constraint with these bounds has a negative value. -/
def hasNegativeValue (bounds : Bounds F) : Bool :=
  match bounds.lower with
  | some lower => Scalar.lt lower Scalar.zero
  | none => false

/-- Negates the constraints with a negative value. -/
def withNonnegativeValues (p : Problem F) : Except Fault (Problem F) := do
  let negative := p.constraintBounds.map hasNegativeValue
  let constraintBounds ← p.constraintBounds.mapM fun b =>
    if hasNegativeValue b then b.negated else pure b
  let entries ← p.entries.mapM fun e => do
    if ← fetch negative e.row then
      return { e with value := ← Scalar.neg e.value }
    else return e
  return { p with constraintBounds, entries }

/-! ## The result -/

/-- The problem minimises over nonnegative variables, subject to equalities with nonnegative
values. -/
def isCanonical (p : Problem F) : Bool :=
  p.objective == .minimize &&
  p.variableBounds.all (fun b =>
    match b.lower, b.upper with
    | some lower, none => Scalar.eq lower Scalar.zero
    | _, _ => false) &&
  p.constraintBounds.all (fun b => b.isEquality && !hasNegativeValue b)

end Problem

end LinearOpt

import LinearOpt.Canonical.Form
import LinearOpt.Simplex.Iterate

/-!
# The two phase simplex method

In the first phase the sum of the artificial variables is brought to zero, if that is possible. Then
artificial variables are driven out of the basis; where none can take their place the row is a
combination of other rows, and its artificial variable stays at zero. In the second phase the cost
of the problem is brought down from the basis found.

Arithmetic is that of the number type, so rational problems are solved without rounding.
-/

namespace LinearOpt

variable {F : Type} [Scalar F]

namespace Tableau

/-! ## Phase one -/

/-- The first of the given columns that is not basic and has a nonzero element in row `r`. Columns
after it are not looked at. -/
def firstNonzero (t : Tableau F) (r : Nat) : List Nat → Except Fault (Option Nat)
  | [] => return none
  | j :: js => do
      if ← t.isBasic j then t.firstNonzero r js
      else
        let x ← t.generateElement r j
        if Scalar.nonzero x then return some j else t.firstNonzero r js

/-- Exchanges the artificial variables of the given rows for others, where there is one to take
their place. Returns the rows where there is none. -/
def driveOut (t : Tableau F) : List Nat → Except Fault (Tableau F × List Nat)
  | [] => return (t, [])
  | r :: rs => do
      match ← t.firstNonzero r (List.range t.realColumnCount) with
      | some j => do
          let next ← t.pivot j r (← t.generateColumn j)
          next.driveOut rs
      | none => do
          let (last, redundant) ← t.driveOut rs
          return (last, r :: redundant)

/-- Outcome of the first phase. -/
inductive Feasibility where
  /-- There is a basis without artificial variables but in these rows, which are combinations of
  the others. -/
  | feasible (redundantRows : List Nat)
  | infeasible
  /-- The sum of the artificial variables fell without bound, which only rounding can cause. -/
  | failed
  deriving DecidableEq

/-- Brings the sum of the artificial variables to zero, if possible. The rows that keep their
artificial variables are expected in increasing order. -/
def phaseOne (verbosity : Verbosity) (fuel : Nat) (t : Tableau F) :
    Logged F (Feasibility × Tableau F) := do
  match ← t.iterate verbosity fuel 0 with
  | (.unbounded, last) => return (.failed, last)
  | (.optimal, last) =>
      if last.hasPositiveArtificial then return (.infeasible, last)
      else
        let (driven, redundant) ← last.driveOut last.artificialRows
        require (decide (redundant.Pairwise (· ≤ ·)))
        return (.feasible redundant, driven)

/-! ## Phase two -/

/-- Brings the cost of the problem to its minimum, from a feasible basis. -/
def phaseTwo (verbosity : Verbosity) (fuel : Nat) (t : Tableau F) :
    Logged F (Outcome (List F) × Tableau F) := do
  match ← t.iterate verbosity fuel 0 with
  | (.optimal, last) => return (.optimum last.basicSolution, last)
  | (.unbounded, last) => return (.unbounded, last)

end Tableau

/-! ## Both phases -/

namespace CanonicalForm

/-- The dense constraint matrix: zeros, with each coefficient written to its place. -/
def matrix (c : CanonicalForm F) : Except Fault (List (List F)) :=
  c.problem.entries.foldlM
    (fun rows e => update rows e.row fun row => update row e.column fun _ => .ok e.value)
    (List.replicate c.problem.constraintCount
      (List.replicate c.problem.variableCount Scalar.zero))

/-- The first tableau of a canonical problem. -/
def tableau (c : CanonicalForm F) : Except Fault (Tableau F) := do
  Tableau.start (← c.matrix) c.values c.problem.cost

/-- Solves a canonical problem, with at most `fuel` steps in each phase. An optimum has the values
of the canonical variables. -/
def solve (verbosity : Verbosity) (fuel : Nat) (c : CanonicalForm F) :
    Logged F (Outcome (List F)) := do
  let start ← c.tableau
  match ← start.phaseOne verbosity fuel with
  | (.feasible redundant, t) => do
      Tableau.detail verbosity do return .feasibleBasis redundant.length
      let later ← t.startPhaseTwo
      let (outcome, _) ← later.phaseTwo verbosity fuel
      return outcome
  | (.infeasible, _) => return .infeasible
  | (.failed, _) => do
      if .error ≤ verbosity then Logged.report .phaseOneUnbounded
      return .error

end CanonicalForm

/-- Something that solves linear programs. An optimum has the values of the variables of the
problem as it was built. An infeasible or unbounded problem is no failure. -/
abbrev Solver (F : Type) := Problem F → Configuration → Logged F (Outcome (List F))

/-- Solves a problem with the two phase simplex method, with at most `fuel` steps in each phase. -/
def twoPhase (fuel : Nat) : Solver F := fun p configuration => do
  if configuration.method ≠ .primalSimplex then
    Logged.fail (.refused (.unsupported (.method configuration.method)))
  if configuration.presolve then
    Logged.fail (.refused (.unsupported .presolve))
  let canonical ← p.canonicalForm
  let outcome ← canonical.solve configuration.verbosity fuel
  if .normal ≤ configuration.verbosity then
    Logged.report (.twoPhaseEnded p.variableCount p.constraintCount outcome.status)
  match outcome with
  | .optimum _ => do
      let values ← canonical.reconstruct outcome
      return .optimum values
  | other => return other

end LinearOpt

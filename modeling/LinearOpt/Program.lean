import LinearOpt.Problem.Feasible
import LinearOpt.Problem.Matrix
import LinearOpt.Simplex.TwoPhase

/-!
# Programs

A `Program` is a problem with the options to solve it and what came of the last solve. Solving
leaves the problem as it is. Every edit of the problem discards the result first, also an edit that
is then refused, and so does every solve.
-/

namespace LinearOpt

/-- A problem together with the result of solving it. -/
structure Program (F : Type) where
  problem : Problem F
  configuration : Configuration := {}
  /-- How the last solve ended, `none` if there was none since the last edit, or if it failed. -/
  status : Option Status := none
  /-- The optimum that the last solve found. -/
  optimum : Option (Solution F) := none

namespace Program

variable {F : Type} [Scalar F]

/-- A problem that was not solved yet. -/
def ofProblem (problem : Problem F) : Program F := { problem }

def empty (objective : Objective) : Program F := ofProblem (.empty objective)

def ofMatrix (objective : Objective) (nonNegative : Bool) (a : List (List F)) (b c : List F)
    (relations : List Relation) : Except Failure (Program F) := do
  return ofProblem (← Problem.ofMatrix objective nonNegative a b c relations)

/-- The program without its result. -/
def invalidated (p : Program F) : Program F := { p with status := none, optimum := none }

/-! ## Edits -/

/-- Edits the problem. -/
def edit {α : Type} (change : Edit (Problem F) α) : Edit (Program F) α := fun p =>
  let p := p.invalidated
  match change p.problem with
  | .ok a problem => .ok a { p with problem }
  | .error e problem => .error e { p with problem }

/-- Changes the options. The result stays. -/
def configure (change : Configuration → Configuration) (p : Program F) : Program F :=
  { p with configuration := change p.configuration }

/-- Removes all variables and constraints. The options stay. -/
def clear (p : Program F) : Program F := { p with problem := p.problem.cleared }.invalidated

/-! ## Solving -/

/-- Stores what came of a solve: the optimum with its cost, if there is one, and then the status.
Returns whether there is an optimum. -/
def store (outcome : Outcome (List F)) : Edit (Program F) Bool := do
  match outcome with
  | .optimum values =>
      let p ← get
      let solution ← Solution.of p.problem values
      set { p with optimum := some solution }
  | _ => pure ()
  modify fun p => { p with status := some outcome.status }
  return outcome.status == .optimal

/-- Solves with the given solver. Returns whether there is an optimum. -/
def solveWith (solver : Solver F) (p : Program F) : Program F × Logged F Bool :=
  let p := p.invalidated
  let run := solver p.problem p.configuration
  match run.outcome with
  | .error e => (p, ⟨run.events, .error e⟩)
  | .ok outcome =>
      let events := run.events ++ [.programSolved outcome.status]
      match (store outcome).run p with
      | .ok optimal next => (next, ⟨events, .ok optimal⟩)
      | .error e next => (next, ⟨events, .error e⟩)

/-- Solves with the two phase simplex method, with at most `fuel` steps in each phase. -/
def solve (fuel : Nat) (p : Program F) : Program F × Logged F Bool := p.solveWith (twoPhase fuel)

/-! ## Results -/

/-- The values of the variables at the optimum. -/
def solution (p : Program F) : Except ProblemError (List F) :=
  match p.optimum with
  | some solution => .ok solution.values
  | none => .error .missingSolution

/-- The cost of the optimum. -/
def objectiveValue (p : Program F) : Except ProblemError F :=
  match p.optimum with
  | some solution => .ok solution.objectiveValue
  | none => .error .missingSolution

end Program

end LinearOpt

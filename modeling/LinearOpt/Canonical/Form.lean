import LinearOpt.Canonical.Normalize
import LinearOpt.Logged

/-!
# The canonical form of a problem

`Problem.toCanonical` changes a problem in place and `Problem.canonicalForm` works on a copy. It can
be done once. What was reported before a failure is kept, and so is the state of the problem: a
refusal between two passes would leave it as the last pass did.
-/

namespace LinearOpt

variable {F : Type} [Scalar F]

/-- A canonical problem and the way back to the variables of the problem that it was made from. -/
structure CanonicalForm (F : Type) where
  problem : Problem F
  recoveries : List (Recovery F)

namespace Problem

/-- Runs the passes. Returns the problem as the last pass left it, and the recoveries with the
number of slacks and of ranges that were split. -/
def normalize (p : Problem F) :
    Except Fault (Problem F × Except Failure (List (Recovery F) × Nat × Nat)) := do
  let p ← p.minimized
  let (p, recoveries) ← p.normalizeVariables
  let (p, ranges) ← p.splitRanges
  match p.addSlacks with
  | (p, .error e) => return (p, .error e)
  | (p, .ok slacks) => do
      let p ← p.withNonnegativeValues
      return ({ p with transformed := true }, .ok (recoveries, slacks, ranges))

/-- Brings the problem into canonical form. -/
def toCanonical (p : Problem F) : Problem F × Logged F (List (Recovery F)) :=
  if p.transformed then (p, .fail (.refused .alreadyTransformed))
  else
    match p.checkDimensions with
    | .error e => (p, .fail (.refused e))
    | .ok () =>
      match p.normalize with
      | .error f => (p, .fail (.fault f))
      | .ok (q, .error e) => (q, .fail e)
      | .ok (q, .ok (recoveries, slacks, ranges)) =>
          (q, do
            Logged.report (.canonical
              { variablesBefore := p.variableCount
                variablesAfter := q.variableCount
                slacks
                constraintsBefore := p.constraintCount
                constraintsAfter := q.constraintCount
                ranges })
            require q.isCanonical
            return recoveries)

/-- The canonical form of the problem, which is left as it is. -/
def canonicalForm (p : Problem F) : Logged F (CanonicalForm F) := do
  let (problem, passes) := p.toCanonical
  let recoveries ← passes
  return { problem, recoveries }

end Problem

namespace CanonicalForm

/-- The value of each constraint. -/
def values (c : CanonicalForm F) : List F :=
  c.problem.constraintBounds.map fun b => b.lower.getD Scalar.zero

/-- The values of the variables of the problem that the form was made from. -/
def reconstruct (c : CanonicalForm F) (result : Outcome (List F)) : Except Failure (List F) :=
  Recovery.values c.recoveries result

end CanonicalForm

end LinearOpt

import LinearOpt.Outcome
import LinearOpt.Scalar

/-!
# Getting back from the canonical form

Bringing a problem into canonical form replaces each variable `x` by `scale * x' + offset`, or by
`scale * x' + offset - x''` if it was split in two nonnegative parts. A `Recovery` keeps the three
numbers, so that values of the canonical variables give the value of `x`.
-/

namespace LinearOpt

/-- How to compute the value of a variable from values of the canonical variables. The first of
those has the same position as the variable itself. -/
structure Recovery (F : Type) where
  /-- Position of the part that is subtracted. -/
  paired : Option Nat
  scale : F
  offset : F
  deriving DecidableEq

namespace Recovery

variable {F : Type} [Scalar F]

/-- The value of a canonical variable. -/
def valueAt (canonical : List F) (position : Nat) : Except ProblemError F :=
  match canonical[position]? with
  | some x => .ok x
  | none => .error (.dimensionMismatch (.canonicalSolution canonical.length position))

/-- The value of variable `j`. -/
def value (r : Recovery F) (j : Nat) (canonical : List F) : Except Failure F := do
  let x ← valueAt canonical j
  let shifted ← Scalar.add (← Scalar.mul x r.scale) r.offset
  match r.paired with
  | some position => do
      let part ← valueAt canonical position
      Scalar.sub shifted part
  | none => return shifted

/-- The values of all variables, one for each recovery, from an optimum of the canonical problem. -/
def values (recoveries : List (Recovery F)) (result : Outcome (List F)) :
    Except Failure (List F) :=
  match result with
  | .optimum canonical => recoveries.zipIdx.mapM fun (r, j) => r.value j canonical
  | _ => .error (.refused .missingSolution)

end Recovery

end LinearOpt

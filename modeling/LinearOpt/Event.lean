import LinearOpt.Outcome
import LinearOpt.Scalar

/-!
# What is reported while a problem is solved

An `Event` holds the numbers of a message; `Event.severity` and `Event.text` say how it is shown.
-/

namespace LinearOpt

/-- Which cost function is minimised: the sum of the artificial variables, or the problem's own. -/
inductive Phase where
  | one
  | two
  deriving DecidableEq

namespace Phase

def text : Phase → String
  | one => "One"
  | two => "Two"

def number : Phase → Nat
  | one => 1
  | two => 2

end Phase

/-- How the pivots of one phase ended. -/
inductive Termination where
  | optimal
  | unbounded
  deriving DecidableEq

namespace Termination

def text : Termination → String
  | optimal => "Optimal"
  | unbounded => "Unbounded"

end Termination

/-- Sizes before and after a problem was brought into canonical form. -/
structure CanonicalSizes where
  variablesBefore : Nat
  variablesAfter : Nat
  slacks : Nat
  constraintsBefore : Nat
  constraintsAfter : Nat
  ranges : Nat
  deriving DecidableEq

inductive Severity where
  | error
  | info
  | debug
  | trace
  deriving DecidableEq

namespace Severity

def text : Severity → String
  | error => "ERROR"
  | info => "INFO"
  | debug => "DEBUG"
  | trace => "TRACE"

end Severity

/-- Something worth reporting. -/
inductive Event (F : Type) where
  | canonical (sizes : CanonicalSizes)
  | pivot (column : Nat) (relativeCost : F) (leaving row : Nat)
  | phaseEnded (phase : Phase) (termination : Termination) (pivots : Nat) (objective : F)
  | feasibleBasis (redundantRows : Nat)
  /-- The sum of the artificial variables fell without bound, which only rounding can cause. -/
  | phaseOneUnbounded
  /-- A problem with `n` variables and `m` constraints was solved. -/
  | twoPhaseEnded (n m : Nat) (status : Status)
  | programSolved (status : Status)
  deriving DecidableEq

namespace Event

variable {F : Type} [Scalar F]

def severity : Event F → Severity
  | canonical _ => .debug
  | pivot .. => .trace
  | phaseEnded .. => .debug
  | feasibleBasis _ => .debug
  | phaseOneUnbounded => .error
  | twoPhaseEnded .. => .info
  | programSolved _ => .debug

def text : Event F → String
  | canonical ⟨n, columns, slacks, m, rows, ranges⟩ =>
      s!"Canonical form: {n} -> {columns} variables ({slacks} slacks), " ++
        s!"{m} -> {rows} constraints ({ranges} ranges split)"
  | pivot column relativeCost leaving row =>
      s!"Pivot on column {column} (relative cost " ++ Scalar.text relativeCost ++
        s!"), leaving column {leaving} in row {row}"
  | phaseEnded phase termination pivots objective =>
      "Phase " ++ phase.text ++ " ended " ++ termination.text ++
        s!" after {pivots} iterations, objective value " ++ Scalar.text objective
  | feasibleBasis redundantRows =>
      s!"Phase one found a feasible basis, {redundantRows} redundant rows"
  | phaseOneUnbounded =>
      "Phase one cost became unbounded, the artificial problem was solved incorrectly"
  | twoPhaseEnded n m status =>
      s!"Two phase solve of {n} variables and {m} constraints: " ++ status.text
  | programSolved status => "Solved linear program: " ++ status.text

/-- The line that a log shows. -/
def line (event : Event F) : String := event.severity.text ++ " " ++ event.text

end Event

end LinearOpt

/-!
# Outcomes of a solve

A linear program has an optimum, is infeasible, or is unbounded. A solver may be unable to tell the
last two apart, and it may fail for reasons of its own.
-/

namespace LinearOpt

/-- The kind of an outcome. -/
inductive Status where
  | optimal
  | infeasible
  | unbounded
  | infeasibleOrUnbounded
  | error
  deriving DecidableEq

namespace Status

/-- The name shown in messages. -/
def text : Status → String
  | optimal => "optimal"
  | infeasible => "infeasible"
  | unbounded => "unbounded"
  | infeasibleOrUnbounded => "infeasible_or_unbounded"
  | error => "error"

end Status

/-- What came of a solve. An optimum comes with an `α`, for instance the values of all variables. -/
inductive Outcome (α : Type) where
  | optimum (solution : α)
  | infeasible
  | unbounded
  | infeasibleOrUnbounded
  | error
  deriving DecidableEq

namespace Outcome

variable {α β : Type}

def status : Outcome α → Status
  | optimum _ => .optimal
  | infeasible => .infeasible
  | unbounded => .unbounded
  | infeasibleOrUnbounded => .infeasibleOrUnbounded
  | error => .error

/-- The same outcome, with what an optimum comes with replaced by an image that may fail. -/
def mapM {m : Type → Type} [Monad m] (f : α → m β) : Outcome α → m (Outcome β)
  | optimum a => do return optimum (← f a)
  | infeasible => return infeasible
  | unbounded => return unbounded
  | infeasibleOrUnbounded => return infeasibleOrUnbounded
  | error => return error

end Outcome

end LinearOpt

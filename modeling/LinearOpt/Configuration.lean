/-!
# Options of a solve

The method to use, whether to simplify the problem first, and how much to report.
The texts are the ones that messages and listings show.
-/

namespace LinearOpt

/-- Algorithms that a solver can be asked to use. -/
inductive Method where
  | primalSimplex
  | dualSimplex
  | interiorPoint
  deriving DecidableEq

namespace Method

/-- The name shown in messages. -/
def text : Method → String
  | primalSimplex => "primal_simplex"
  | dualSimplex => "dual_simplex"
  | interiorPoint => "interior_point"

end Method

/-- How much a solver reports. Each level reports everything that the levels before it do. -/
inductive Verbosity where
  | off
  /-- Only failures. -/
  | error
  /-- Also the outcome of each solve. -/
  | normal
  /-- Also phases and pivots. -/
  | verbose
  deriving DecidableEq

namespace Verbosity

/-- The name shown in messages. -/
def text : Verbosity → String
  | off => "off"
  | error => "error"
  | normal => "normal"
  | verbose => "verbose"

/-- Position in the order of the levels. -/
def rank : Verbosity → Nat
  | off => 0
  | error => 1
  | normal => 2
  | verbose => 3

instance : LE Verbosity := ⟨fun a b => a.rank ≤ b.rank⟩

instance : LT Verbosity := ⟨fun a b => a.rank < b.rank⟩

instance (a b : Verbosity) : Decidable (a ≤ b) := inferInstanceAs (Decidable (a.rank ≤ b.rank))

instance (a b : Verbosity) : Decidable (a < b) := inferInstanceAs (Decidable (a.rank < b.rank))

end Verbosity

/-- Options passed to a solver. A solver need not support all of them. -/
structure Configuration where
  method : Method := .primalSimplex
  /-- Whether to simplify the problem before it is solved. -/
  presolve : Bool := false
  verbosity : Verbosity := .off
  deriving DecidableEq

end LinearOpt

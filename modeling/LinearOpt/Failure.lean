import LinearOpt.Configuration

/-!
# How an operation can end without an answer

* A `Fault` is a broken promise inside a computation: a failed check, a position outside a list,
  a number outside its range. Nothing can be said about the data afterwards.
* A `ProblemError` is a refusal: the request does not fit the problem or the options.
* A `Failure` is either of the two, or an iteration that was given too few steps to end.

`ProblemError.message` holds the wording of all refusals.
-/

namespace LinearOpt

/-- Why a computation was abandoned. -/
inductive Fault where
  /-- A check that callers are expected to meet did not hold. -/
  | assertion
  /-- A position outside a list was read or written. -/
  | index
  /-- A number did not fit its range. -/
  | overflow
  /-- A fraction with denominator zero was formed. -/
  | zeroDivision
  deriving DecidableEq

/-- Sizes or positions that do not belong together. -/
inductive Mismatch where
  | matrixRows (rows values : Nat)
  | matrixColumns (row columns values : Nat)
  | relations (relations rows : Nat)
  | costs (coefficients count : Nat)
  | indexSize (indexed entries : Nat)
  | noVariable (position count : Nat)
  | noConstraint (position count : Nat)
  | solution (values count : Nat)
  | canonicalSolution (values requested : Nat)
  deriving DecidableEq

namespace Mismatch

def text : Mismatch → String
  | .matrixRows rows values =>
      s!"the matrix has {rows} rows, but the right-hand side has {values} values"
  | .matrixColumns row columns values =>
      s!"row {row} of the matrix has {columns} columns, but the cost function has {values} values"
  | .relations given rows => s!"{given} relations were given for {rows} rows"
  | .costs coefficients count =>
      s!"{coefficients} objective coefficients for {count} variables"
  | .indexSize indexed entries => s!"{indexed} indexed coefficients for {entries} entries"
  | .noVariable position count =>
      s!"variable {position} doesn't exist, there are {count} variables"
  | .noConstraint position count =>
      s!"constraint {position} doesn't exist, there are {count} constraints"
  | .solution values count => s!"solution has {values} values for {count} variables"
  | .canonicalSolution values requested =>
      s!"canonical solution has {values} values, variable {requested} was requested"

end Mismatch

/-- Requests that a solver or writer does not offer. -/
inductive Unsupported where
  | method (method : Method)
  | presolve
  /-- A fraction has no decimal text of its own, so it can't be written to a file of decimals. -/
  | exactMps
  /-- A refusal in the words of some other solver. -/
  | other (words : String)
  deriving DecidableEq

namespace Unsupported

def text : Unsupported → String
  | .method m =>
      "the two phase solver only implements the primal simplex method, not " ++ m.text
  | .presolve => "the two phase solver has no presolve"
  | .exactMps => "exporting exact numbers in the MPS format"
  | .other words => words

end Unsupported

/-- Why a request was refused. -/
inductive ProblemError where
  | dimensionMismatch (mismatch : Mismatch)
  /-- A constraint was created without any finite bound. -/
  | invalidConstraint
  /-- The problem was brought into canonical form before. -/
  | alreadyTransformed
  | unsupported (what : Unsupported)
  /-- A solution was requested, but the last solve did not end with an optimum. -/
  | missingSolution
  deriving DecidableEq

namespace ProblemError

def message : ProblemError → String
  | dimensionMismatch mismatch => "dimension mismatch: " ++ mismatch.text
  | invalidConstraint => "a constraint needs at least one finite bound"
  | alreadyTransformed => "the problem is already in canonical form"
  | unsupported what => "unsupported operation: " ++ what.text
  | missingSolution => "no solution is available"

end ProblemError

/-- Why an operation has no answer. -/
inductive Failure where
  | fault (fault : Fault)
  | refused (error : ProblemError)
  /-- The iteration did not end within the number of steps it was given. -/
  | outOfFuel
  deriving DecidableEq

/-- A faulty computation fails the operation that it is part of. -/
instance : MonadLift (Except Fault) (Except Failure) := ⟨fun x => x.mapError .fault⟩

/-- A refusal fails the operation that it is part of. -/
instance : MonadLift (Except ProblemError) (Except Failure) := ⟨fun x => x.mapError .refused⟩

/-- An operation that changes a state of type `σ` and may fail. The state is kept when it does. -/
abbrev Edit (σ α : Type) := EStateM Failure σ α

instance {σ : Type} : MonadLift (Except Failure) (EStateM Failure σ) where
  monadLift
    | .ok a => pure a
    | .error e => throw e

/-- A check that callers are expected to meet. -/
def require (condition : Bool) : Except Fault Unit :=
  if condition then .ok () else .error .assertion

/-- The element at a position, a fault if there is none. -/
def fetch {α : Type} (xs : List α) (i : Nat) : Except Fault α :=
  match xs[i]? with
  | some x => .ok x
  | none => .error .index

/-- The list with the element at a position replaced by its image, a fault if there is none. -/
def update {α : Type} (xs : List α) (i : Nat) (f : α → Except Fault α) :
    Except Fault (List α) := do
  let x ← fetch xs i
  return xs.set i (← f x)

end LinearOpt

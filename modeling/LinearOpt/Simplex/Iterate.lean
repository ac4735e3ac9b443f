import LinearOpt.Logged
import LinearOpt.Tableau.Pivot

/-!
# Pivoting until a phase ends

`iterate` pivots until no column lowers the cost, or until one lowers it without end. The method can
cycle, so the number of pivots is limited by fuel; running out of it is a failure of its own, and a
run that ends does not change with more fuel.
-/

namespace LinearOpt.Tableau

variable {F : Type} [Scalar F]

/-- Reports only at the verbose level. -/
def detail (verbosity : Verbosity) (event : Logged F (Event F)) : Logged F Unit :=
  if .verbose ≤ verbosity then do Logged.report (← event) else pure ()

/-- Reports how the phase ended. -/
def reportEnd (verbosity : Verbosity) (t : Tableau F) (termination : Termination) (pivots : Nat) :
    Logged F Unit :=
  detail verbosity do
    let objective ← t.objectiveValue
    return .phaseEnded t.phase termination pivots objective

/-- Pivots until the phase ends, at most `fuel` times. The number of pivots made so far is only
reported. -/
def iterate (verbosity : Verbosity) : (fuel : Nat) → (pivots : Nat) → Tableau F →
    Logged F (Termination × Tableau F)
  | 0, _, _ => Logged.fail .outOfFuel
  | fuel + 1, pivots, t => do
      require t.isFeasibleBasis
      match ← t.nextStep with
      | .optimal => do
          reportEnd verbosity t .optimal pivots
          return (.optimal, t)
      | .unbounded .. => do
          reportEnd verbosity t .unbounded pivots
          return (.unbounded, t)
      | .pivot column relativeCost row coefficients => do
          detail verbosity do
            return .pivot column relativeCost (← t.basicColumn row) row
          let next ← t.pivot column row coefficients
          iterate verbosity fuel (pivots + 1) next

end LinearOpt.Tableau

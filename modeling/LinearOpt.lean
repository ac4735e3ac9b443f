import LinearOpt.Mps.Export
import LinearOpt.Program
import LinearOpt.Scalar.Binary64
import LinearOpt.Scalar.Bounded
import LinearOpt.Proofs.Simplex.Reached
import LinearOpt.Proofs.Simplex.Failures
import LinearOpt.Proofs.Simplex.Exchanges
import LinearOpt.Proofs.Simplex.Progress
import LinearOpt.Proofs.Simplex.Built
import LinearOpt.Proofs.Simplex.RatioTest
import LinearOpt.Proofs.Simplex.PhaseOne
import LinearOpt.Proofs.Simplex.RedundantRows
import LinearOpt.Proofs.Program
import LinearOpt.Proofs.Canonical.Storage
import LinearOpt.Proofs.Problem.Cells
import LinearOpt.Proofs.Simplex.Verbosity
import LinearOpt.Proofs.Refinement.Agreement
import LinearOpt.Proofs.Refinement.Bounded
import LinearOpt.Proofs.Refinement.Canonical
import LinearOpt.Proofs.Refinement.Tableau
import LinearOpt.Proofs.Refinement.Overflow
import LinearOpt.Proofs.Canonical.WellFormed
import LinearOpt.Proofs.Mps.Bounds
import LinearOpt.Proofs.Canonical.Scaling
import LinearOpt.Proofs.Simplex.Scaling
import LinearOpt.Proofs.Canonical.Layout
import LinearOpt.Proofs.Mps.Listing
import LinearOpt.Proofs.Problem.Dense

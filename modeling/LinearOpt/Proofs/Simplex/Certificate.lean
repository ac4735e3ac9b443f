import LinearOpt.Proofs.Simplex.Phases
import Mathlib.LinearAlgebra.Matrix.DotProduct

/-!
# Certificates

Whatever a run ends with, the last tableau shows that it is right.

* `Optimal`: a vertex, with prices of the rows that no column undercuts and that value the right-hand
  side at the cost of the vertex.
* `Infeasible`: prices at which every column is worth at most nothing, but the right-hand side is
  worth something.
* `Unbounded`: a direction that keeps the rows satisfied, lowers no variable and lowers the cost.

`Optimal.le`, `Infeasible.not_feasible` and `Unbounded.cost_lt` are what they certify.  The other way
around, `Basis.Proper.optimal`, `Basis.Feasible.infeasible` and `Basis.Proper.unbounded` read them
from the basis that a phase ends with, and `run_certified` reads them from its tableau.
-/

namespace LinearOpt

open Matrix

namespace StandardForm

variable {m n : ℕ} (p : StandardForm m n)

/-! ## What certifies an end -/

structure Optimal (x : Fin n → ℚ) (duals : Fin m → ℚ) : Prop where
  nonneg : 0 ≤ x
  mulVec_eq : p.matrix *ᵥ x = p.values
  linearIndepOn : LinearIndepOn ℚ p.matrix.col {j | x j ≠ 0}
  duals_le : duals ᵥ* p.matrix ≤ p.cost
  cost_eq : duals ⬝ᵥ p.values = p.cost ⬝ᵥ x

structure Infeasible (duals : Fin m → ℚ) : Prop where
  duals_le : duals ᵥ* p.matrix ≤ 0
  values_pos : 0 < duals ⬝ᵥ p.values

structure Unbounded (direction : Fin n → ℚ) : Prop where
  nonneg : 0 ≤ direction
  mulVec_eq : p.matrix *ᵥ direction = 0
  cost_neg : p.cost ⬝ᵥ direction < 0

variable {p}

/-- What a feasible vector costs is at least what the prices make of the right-hand side. -/
theorem duals_dotProduct_le {duals : Fin m → ℚ} {cost y : Fin n → ℚ}
    (hduals : duals ᵥ* p.matrix ≤ cost) (hy : 0 ≤ y) (hrows : p.matrix *ᵥ y = p.values) :
    duals ⬝ᵥ p.values ≤ cost ⬝ᵥ y := by
  rw [← hrows, dotProduct_mulVec]
  exact dotProduct_le_dotProduct_of_nonneg_right hduals hy

theorem Optimal.le {x y : Fin n → ℚ} {duals : Fin m → ℚ} (h : p.Optimal x duals) (hy : 0 ≤ y)
    (hrows : p.matrix *ᵥ y = p.values) : p.cost ⬝ᵥ x ≤ p.cost ⬝ᵥ y := by
  rw [← h.cost_eq]
  exact duals_dotProduct_le h.duals_le hy hrows

theorem Infeasible.not_feasible {duals : Fin m → ℚ} (h : p.Infeasible duals) {y : Fin n → ℚ}
    (hy : 0 ≤ y) : p.matrix *ᵥ y ≠ p.values := by
  intro hrows
  have hle := duals_dotProduct_le h.duals_le hy hrows
  rw [zero_dotProduct] at hle
  exact absurd h.values_pos (not_lt_of_ge hle)

/-- From a feasible vector the direction leads to feasible vectors of any cost. -/
theorem Unbounded.cost_lt {direction : Fin n → ℚ} (h : p.Unbounded direction) {x : Fin n → ℚ}
    (hx : 0 ≤ x) (hrows : p.matrix *ᵥ x = p.values) (bound : ℚ) :
    ∃ y, 0 ≤ y ∧ p.matrix *ᵥ y = p.values ∧ p.cost ⬝ᵥ y < bound := by
  -- go one step further than where the cost meets the bound
  obtain ⟨s, hs, hbound⟩ : ∃ s : ℚ, 0 ≤ s ∧ p.cost ⬝ᵥ x + s * p.cost ⬝ᵥ direction < bound := by
    have hneg := h.cost_neg
    refine ⟨max 0 ((bound - p.cost ⬝ᵥ x) / p.cost ⬝ᵥ direction + 1), le_max_left _ _, ?_⟩
    have hmul := mul_le_mul_of_nonpos_right
      (le_max_right 0 ((bound - p.cost ⬝ᵥ x) / p.cost ⬝ᵥ direction + 1)) hneg.le
    rw [add_mul, div_mul_cancel₀ _ hneg.ne, one_mul] at hmul
    linarith
  refine ⟨x + s • direction, ?_, ?_, ?_⟩
  · exact add_nonneg hx (smul_nonneg hs h.nonneg)
  · rw [mulVec_add, mulVec_smul, h.mulVec_eq, smul_zero, add_zero, hrows]
  · rw [dotProduct_add, dotProduct_smul, smul_eq_mul]
    exact hbound

/-! ## Certificates from a basis -/

namespace Basis

variable {B : p.Basis}

theorem duals_vecMul (phase : Phase) (j : Fin n) :
    (B.duals phase ᵥ* p.matrix) j = p.phaseCost phase j - B.reducedCost phase j := by
  rw [reducedCost, column_of_lt, sub_sub_cancel]
  rfl

/-- The columns of the matrix that are basic are independent, and no other column is used. -/
theorem linearIndepOn_solution :
    LinearIndepOn ℚ p.matrix.col {j | B.solution j ≠ 0} := by
  have hrow : ∀ j : {j : Fin n // B.solution j ≠ 0}, ∃ i, B.columns i = j.1 := by
    rintro ⟨j, hj⟩
    by_contra hnot
    exact hj (B.spread_eq_zero _ (not_exists.mp hnot))
  choose row hrow using hrow
  have hinj : Function.Injective row := by
    intro j k hjk
    apply Subtype.ext
    apply Fin.ext
    rw [← hrow j, ← hrow k, hjk]
  have hcols : LinearIndependent ℚ (p.basisMatrix B.columns).col :=
    linearIndependent_cols_iff_isUnit.mpr B.isUnit
  have hcomp := hcols.comp row hinj
  have heq : (p.basisMatrix B.columns).col ∘ row =
      fun j : {j : Fin n // B.solution j ≠ 0} => p.matrix.col j.1 := by
    funext j
    rw [← column_of_lt, ← hrow j]
    rfl
  rw [heq] at hcomp
  exact hcomp

namespace Proper

variable (hB : B.Proper)
include hB

theorem solution_nonneg : 0 ≤ B.solution := by
  intro j
  rw [Pi.zero_apply, solution, spread]
  refine Finset.sum_nonneg fun i _ => ?_
  split
  · exact hB.feasible i
  · exact le_rfl

theorem mulVec_solution : p.matrix *ᵥ B.solution = p.values := by
  rw [solution, B.mulVec_spread hB.values_eq_zero, B.basisMatrix_mulVec_values]

theorem optimal (h : IsOptimal .two B) : p.Optimal B.solution (B.duals .two) where
  nonneg := hB.solution_nonneg
  mulVec_eq := hB.mulVec_solution
  linearIndepOn := linearIndepOn_solution
  duals_le j := by
    have hcost := h.reducedCost_nonneg j j.isLt
    have hphase : p.phaseCost .two j = p.cost j := dif_pos j.isLt
    rw [duals_vecMul, hphase]
    linarith
  cost_eq := by
    rw [duals_dotProduct_values, solution, cost_dotProduct_spread]
    rfl

/-- Rows with an artificial variable are redundant, so the direction does not need that variable. -/
theorem mulVec_direction (j : Fin n) : p.matrix *ᵥ B.direction j = 0 := by
  have hzero : ∀ i, n ≤ B.columns i → B.coefficients j i = 0 := fun i hi =>
    hB.redundant i hi j j.isLt
  rw [direction, mulVec_sub, B.mulVec_spread hzero, B.basisMatrix_mulVec_coefficients,
    mulVec_single_one, column_of_lt, sub_self]

theorem unbounded {j : Fin n} (h : IsUnbounded .two B j) : p.Unbounded (B.direction j) where
  nonneg k := by
    have hspread : B.spread (B.coefficients j) k ≤ 0 := by
      rw [spread]
      refine Finset.sum_nonpos fun i _ => ?_
      split
      · exact h.coefficients_nonpos i
      · exact le_rfl
    have hsingle : (0 : Fin n → ℚ) k ≤ (Pi.single j 1 : Fin n → ℚ) k :=
      Pi.single_nonneg.mpr zero_le_one k
    rw [direction, Pi.sub_apply]
    exact hsingle.trans (by linarith)
  mulVec_eq := hB.mulVec_direction j
  cost_neg := by
    have hcost := h.reducedCost_neg
    have hphase : p.phaseCost .two j = p.cost j := dif_pos j.isLt
    rw [reducedCost_eq, hphase] at hcost
    rw [direction, dotProduct_sub, dotProduct_single_one, cost_dotProduct_spread]
    exact hcost

end Proper

theorem Feasible.infeasible (hB : B.Feasible) (h : IsOptimal .one B)
    (hpos : ∃ i, n ≤ B.columns i ∧ 0 < B.values i) : p.Infeasible (B.duals .one) where
  duals_le j := by
    have hcost := h.reducedCost_nonneg j j.isLt
    have hphase : p.phaseCost .one j = 0 := if_pos j.isLt
    rw [duals_vecMul, hphase]
    exact sub_nonpos_of_le hcost
  values_pos := by
    have hcosts : ∀ i, 0 ≤ B.costs .one i := by
      intro i
      rw [costs, phaseCost]
      split
      · exact le_rfl
      · exact zero_le_one
    obtain ⟨i, hi, hvalue⟩ := hpos
    have hone : B.costs .one i = 1 := if_neg (Nat.not_lt.mpr hi)
    rw [duals_dotProduct_values, objective]
    refine Finset.sum_pos' (fun k _ => mul_nonneg (hcosts k) (hB k)) ⟨i, Finset.mem_univ i, ?_⟩
    rw [hone, one_mul]
    exact hvalue

/-! ### The direction, entry by entry -/

theorem direction_self {j : Fin n} (h : B.has j = false) : B.direction j j = 1 := by
  rw [direction, Pi.sub_apply, Pi.single_eq_same, B.spread_eq_zero _ (B.has_eq_false_iff.mp h),
    sub_zero]

theorem direction_columns {j k : Fin n} {i : Fin m} (h : B.has j = false) (hk : B.columns i = k) :
    B.direction j k = -B.coefficients j i := by
  have hne : k ≠ j := by
    rintro rfl
    exact B.has_eq_false_iff.mp h i hk
  rw [direction, Pi.sub_apply, Pi.single_eq_of_ne hne, B.spread_columns _ hk, zero_sub]

theorem direction_eq_zero {j k : Fin n} (hne : k ≠ j) (hk : ∀ i, B.columns i ≠ k) :
    B.direction j k = 0 := by
  rw [direction, Pi.sub_apply, Pi.single_eq_of_ne hne, B.spread_eq_zero _ hk, sub_zero]

end Basis

/-! ## Certificates in a tableau -/

variable (p) in
structure ShowsOptimal (t : Tableau ℚ) (x : Fin n → ℚ) (duals : Fin m → ℚ) : Prop where
  basicSolution_eq : t.basicSolution = List.ofFn x
  dualValues_eq : t.dualValues = .ok (List.ofFn duals)
  objectiveValue_eq : t.objectiveValue = .ok (p.cost ⬝ᵥ x)
  optimal : p.Optimal x duals

variable (p) in
structure ShowsInfeasible (t : Tableau ℚ) (duals : Fin m → ℚ) : Prop where
  dualValues_eq : t.dualValues = .ok (List.ofFn duals)
  infeasible : p.Infeasible duals

variable (p) in
/-- The direction is one at the chosen column, minus its coefficients at the basic columns, and zero
elsewhere. -/
structure ShowsUnbounded (t : Tableau ℚ) (j : Fin n) (coefficients : Fin m → ℚ)
    (columns : Fin m → ℕ) (direction : Fin n → ℚ) : Prop where
  nextStep_eq : ∃ cost, t.nextStep = .ok (.unbounded j cost)
  generateColumn_eq : t.generateColumn j = .ok (List.ofFn coefficients)
  basicColumn_eq : ∀ i : Fin m, t.basicColumn i = .ok (columns i)
  direction_self : direction j = 1
  direction_columns : ∀ (i : Fin m) (k : Fin n), columns i = k → direction k = -coefficients i
  direction_eq_zero : ∀ k, k ≠ j → (∀ i : Fin m, columns i ≠ k) → direction k = 0
  unbounded : p.Unbounded direction

theorem IsOptimal.shows {B : p.Basis} (h : IsOptimal .two B) (hB : B.Proper) :
    p.ShowsOptimal (tableau .two B) B.solution (B.duals .two) where
  basicSolution_eq := StandardForm.basicSolution_eq .two B
  dualValues_eq := StandardForm.dualValues_eq .two B
  objectiveValue_eq := by
    have hoptimal := hB.optimal h
    rw [StandardForm.objectiveValue_eq, ← hoptimal.cost_eq, B.duals_dotProduct_values]
  optimal := hB.optimal h

theorem IsUnbounded.shows {B : p.Basis} {j : Fin n} (h : IsUnbounded .two B j) (hB : B.Proper) :
    p.ShowsUnbounded (tableau .two B) j (B.coefficients j) B.columns (B.direction j) where
  nextStep_eq := ⟨_, h.nextStep⟩
  generateColumn_eq := StandardForm.generateColumn_eq .two B (by omega)
  basicColumn_eq := StandardForm.basicColumn_eq .two B
  direction_self := Basis.direction_self h.not_basic
  direction_columns _ _ := Basis.direction_columns h.not_basic
  direction_eq_zero _ := Basis.direction_eq_zero
  unbounded := hB.unbounded h

/-- Each phase goes on for as many pivots as it is allowed to make, or it ends with a tableau that
shows why.  Nothing else can happen. -/
theorem run_certified (p : StandardForm m n) (verbosity : Verbosity) (fuel later : ℕ) :
    ∃ first, p.start = .ok first ∧
      ((first.phaseOne verbosity fuel).outcome = .error .outOfFuel ∧ first.MakesPivots fuel ∨
      (∃ last duals, (first.phaseOne verbosity fuel).outcome = .ok (.infeasible, last) ∧
        p.ShowsInfeasible last duals) ∨
      ∃ redundant feasible second,
        (first.phaseOne verbosity fuel).outcome = .ok (.feasible redundant, feasible) ∧
        feasible.startPhaseTwo = .ok second ∧
        ((second.phaseTwo verbosity later).outcome = .error .outOfFuel ∧
            second.MakesPivots later ∨
          (∃ last x duals,
            (second.phaseTwo verbosity later).outcome = .ok (.optimum (List.ofFn x), last) ∧
            p.ShowsOptimal last x duals) ∨
          ∃ last j coefficients columns direction,
            (second.phaseTwo verbosity later).outcome = .ok (.unbounded, last) ∧
            p.ShowsUnbounded last j coefficients columns direction)) := by
  refine ⟨_, start_eq, ?_⟩
  rcases phaseOne_cases (p := p) verbosity fuel with
    hfuel | ⟨last, hfeasible, hopt, hpos, hend⟩ | ⟨B, redundant, hB, hend⟩
  · exact Or.inl hfuel
  · exact Or.inr (Or.inl ⟨_, _, hend, dualValues_eq .one last,
      hfeasible.infeasible hopt hpos⟩)
  · refine Or.inr (Or.inr ⟨redundant, _, _, hend, startPhaseTwo_eq B, ?_⟩)
    rcases phaseTwo_cases verbosity later hB with
      hfuel | ⟨last, hlast, hopt, hend⟩ | ⟨last, j, hlast, hunb, hend⟩
    · exact Or.inl hfuel
    · exact Or.inr (Or.inl ⟨_, _, _, hend, hopt.shows hlast⟩)
    · lift j to Fin n using hunb.lt
      exact Or.inr (Or.inr ⟨_, j, _, _, _, hend, hunb.shows hlast⟩)

end StandardForm

end LinearOpt

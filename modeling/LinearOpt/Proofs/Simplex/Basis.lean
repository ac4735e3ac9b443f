import LinearOpt.Event
import Mathlib.Algebra.BigOperators.Field
import Mathlib.Algebra.Field.Rat
import Mathlib.Algebra.Order.Ring.Rat
import Mathlib.Data.List.OfFn
import Mathlib.LinearAlgebra.Matrix.NonsingularInverse

/-!
# Bases of a problem in standard form

The linear algebra of the simplex method, without tableaux.  A `StandardForm m n` asks for the
least cost over `A x = b`, `x ≥ 0`, with `b ≥ 0`.  Its columns are the `n` columns of `A` and, after
them, one artificial unit column for each row.  A `Basis` chooses a column for each row such that
the chosen columns are an invertible matrix.

Everything that a tableau stores is a function of the basis:

* `Basis.inverse`, `Basis.values` and `Basis.costs` are its rows;
* `Basis.coefficients` gives any column with respect to the basis, `Basis.duals` and
  `Basis.reducedCost` price it.

`Basis.solution` and `Basis.direction` are the vectors that it stands for, and `mulVec_spread` lets
them be multiplied with the matrix of the problem.

`Basis.exchange` replaces the column of one row.  `exchange_mulVec` is the pivot formula, from which
the new coefficients and the new values follow.
-/

namespace LinearOpt

open Matrix

/-- Minimise `cost ⬝ᵥ x` over all `x ≥ 0` with `matrix *ᵥ x = values`. -/
structure StandardForm (m n : ℕ) where
  matrix : Matrix (Fin m) (Fin n) ℚ
  values : Fin m → ℚ
  cost : Fin n → ℚ
  values_nonneg : ∀ i, 0 ≤ values i

namespace StandardForm

variable {m n : ℕ} (p : StandardForm m n)

/-- Column `j` of the matrix, and behind those the unit columns of the artificial variables. -/
def column (j : ℕ) : Fin m → ℚ := fun i =>
  if h : j < n then p.matrix i ⟨j, h⟩ else if j = n + i then 1 else 0

/-- Cost of a column in a phase. -/
def phaseCost (phase : Phase) (j : ℕ) : ℚ :=
  match phase with
  | .one => if j < n then 0 else 1
  | .two => if h : j < n then p.cost ⟨j, h⟩ else 0

/-- The columns chosen for the rows, side by side. -/
def basisMatrix (columns : Fin m → ℕ) : Matrix (Fin m) (Fin m) ℚ :=
  Matrix.of fun i k => p.column (columns k) i

/-- A choice of a column for each row whose matrix is invertible. -/
structure Basis where
  columns : Fin m → ℕ
  isUnit : IsUnit (p.basisMatrix columns)

theorem column_of_lt (j : Fin n) : p.column j = p.matrix.col j := by
  funext i
  simp [column]

theorem column_artificial (i : Fin m) : p.column (n + i) = Pi.single i 1 := by
  funext k
  by_cases hk : k = i
  · subst hk
    simp [column]
  · have hne : ¬ i.val = k.val := fun h => hk (Fin.ext h.symm)
    simp [column, hk, hne]

/-- There are `n + m` columns. -/
theorem column_eq_zero {j : ℕ} (hj : n + m ≤ j) : p.column j = 0 := by
  funext i
  have hlt : ¬ j < n := by omega
  have hne : ¬ j = n + i.val := by omega
  simp [column, hlt, hne]

/-- The matrix of the artificial columns is the identity. -/
theorem basisMatrix_artificial : p.basisMatrix (fun i => n + i) = 1 := by
  ext i k
  rw [basisMatrix, of_apply, column_artificial, one_apply, Pi.single_apply]

namespace Basis

variable {p}

/-- The basis of the artificial columns. -/
def artificial (p : StandardForm m n) : p.Basis where
  columns i := n + i
  isUnit := by rw [p.basisMatrix_artificial]; exact isUnit_one

variable (B : p.Basis)

/-- Whether column `j` belongs to the basis. -/
def has (j : ℕ) : Bool := (List.ofFn B.columns).contains j

noncomputable def inverse : Matrix (Fin m) (Fin m) ℚ := (p.basisMatrix B.columns)⁻¹

/-- Column `j` with respect to the basis. -/
noncomputable def coefficients (j : ℕ) : Fin m → ℚ := B.inverse *ᵥ p.column j

/-- Values of the basic variables. -/
noncomputable def values : Fin m → ℚ := B.inverse *ᵥ p.values

def costs (phase : Phase) : Fin m → ℚ := fun i => p.phaseCost phase (B.columns i)

/-- The prices of the rows at which every basic column costs nothing. -/
noncomputable def duals (phase : Phase) : Fin m → ℚ := B.costs phase ᵥ* B.inverse

/-- Change of the cost per unit of column `j`. -/
noncomputable def reducedCost (phase : Phase) (j : ℕ) : ℚ :=
  p.phaseCost phase j - B.duals phase ⬝ᵥ p.column j

/-- Cost of the basic solution. -/
noncomputable def objective (phase : Phase) : ℚ := B.costs phase ⬝ᵥ B.values

/-- The vector with `v i` at the basic column of each row `i`, without the artificial columns. -/
def spread (v : Fin m → ℚ) (j : Fin n) : ℚ := ∑ i, if B.columns i = j then v i else 0

/-- The basic solution, without the artificial variables. -/
noncomputable def solution : Fin n → ℚ := B.spread B.values

/-- How the basic solution changes with column `j`, if the rows are to stay satisfied. -/
noncomputable def direction (j : Fin n) : Fin n → ℚ := Pi.single j 1 - B.spread (B.coefficients j)

/-! ## The inverse -/

theorem inverse_mul : B.inverse * p.basisMatrix B.columns = 1 :=
  Matrix.nonsing_inv_mul _ ((isUnit_iff_isUnit_det _).mp B.isUnit)

theorem mul_inverse : p.basisMatrix B.columns * B.inverse = 1 :=
  Matrix.mul_nonsing_inv _ ((isUnit_iff_isUnit_det _).mp B.isUnit)

theorem basisMatrix_mulVec_values : p.basisMatrix B.columns *ᵥ B.values = p.values := by
  rw [values, mulVec_mulVec, mul_inverse, one_mulVec]

theorem basisMatrix_mulVec_coefficients (j : ℕ) :
    p.basisMatrix B.columns *ᵥ B.coefficients j = p.column j := by
  rw [coefficients, mulVec_mulVec, mul_inverse, one_mulVec]

/-- A basic column is a unit vector with respect to the basis. -/
theorem coefficients_columns (i : Fin m) : B.coefficients (B.columns i) = Pi.single i 1 := by
  have hcol : p.column (B.columns i) = p.basisMatrix B.columns *ᵥ Pi.single i 1 := by
    rw [mulVec_single_one]
    rfl
  rw [coefficients, hcol, mulVec_mulVec, inverse_mul, one_mulVec]

theorem columns_injective : Function.Injective B.columns := by
  intro i k hik
  have h := B.coefficients_columns i
  rw [hik, coefficients_columns] at h
  by_contra hne
  have := congrFun h k
  simp [Ne.symm hne] at this

theorem has_iff {j : ℕ} : B.has j = true ↔ ∃ i, B.columns i = j := by
  rw [has, List.contains_iff_mem, List.mem_ofFn]

theorem has_eq_false_iff {j : ℕ} : B.has j = false ↔ ∀ i, B.columns i ≠ j := by
  rw [← Bool.not_eq_true, has_iff, not_exists]

theorem columns_lt (i : Fin m) : B.columns i < n + m := by
  by_contra hge
  have h := B.coefficients_columns i
  rw [coefficients, p.column_eq_zero (Nat.le_of_not_lt hge), mulVec_zero] at h
  have := congrFun h i
  simp at this

/-! ## Prices -/

theorem reducedCost_eq (phase : Phase) (j : ℕ) :
    B.reducedCost phase j = p.phaseCost phase j - B.costs phase ⬝ᵥ B.coefficients j := by
  rw [reducedCost, duals, coefficients, dotProduct_mulVec]

theorem reducedCost_columns (phase : Phase) (i : Fin m) :
    B.reducedCost phase (B.columns i) = 0 := by
  rw [reducedCost_eq, coefficients_columns, dotProduct_single_one, costs, sub_self]

theorem duals_dotProduct_values (phase : Phase) :
    B.duals phase ⬝ᵥ p.values = B.objective phase := by
  rw [duals, objective, values, dotProduct_mulVec]

/-! ## Vectors on the basic columns -/

theorem spread_columns (v : Fin m → ℚ) {i : Fin m} {j : Fin n} (h : B.columns i = j) :
    B.spread v j = v i := by
  rw [spread, Finset.sum_eq_single i, if_pos h]
  · intro k _ hk
    rw [if_neg]
    exact fun hcol => hk (B.columns_injective (hcol.trans h.symm))
  · simp

theorem spread_eq_zero (v : Fin m → ℚ) {j : Fin n} (h : ∀ i, B.columns i ≠ j) :
    B.spread v j = 0 :=
  Finset.sum_eq_zero fun i _ => if_neg (h i)

theorem dotProduct_spread (f : Fin n → ℚ) (v : Fin m → ℚ) :
    f ⬝ᵥ B.spread v = ∑ i, (if h : B.columns i < n then f ⟨B.columns i, h⟩ else 0) * v i := by
  simp only [dotProduct, spread, Finset.mul_sum]
  rw [Finset.sum_comm]
  refine Finset.sum_congr rfl fun i _ => ?_
  split
  · rename_i hlt
    rw [Finset.sum_eq_single ⟨B.columns i, hlt⟩, if_pos rfl]
    · intro j _ hj
      rw [if_neg fun hcol => hj (Fin.ext hcol.symm), mul_zero]
    · simp
  · rename_i hge
    rw [zero_mul]
    refine Finset.sum_eq_zero fun j _ => ?_
    rw [if_neg fun hcol => hge (by omega), mul_zero]

/-- The columns of the problem see a vector on the basic columns as the basis matrix does, unless it
has an artificial part. -/
theorem mulVec_spread {v : Fin m → ℚ} (h : ∀ i, n ≤ B.columns i → v i = 0) :
    p.matrix *ᵥ B.spread v = p.basisMatrix B.columns *ᵥ v := by
  funext k
  have hrow : (p.matrix *ᵥ B.spread v) k = (fun j => p.matrix k j) ⬝ᵥ B.spread v := rfl
  have hbasis : (p.basisMatrix B.columns *ᵥ v) k = ∑ i, p.column (B.columns i) k * v i := rfl
  rw [hrow, dotProduct_spread, hbasis]
  refine Finset.sum_congr rfl fun i _ => ?_
  by_cases hlt : B.columns i < n
  · rw [dif_pos hlt, column, dif_pos hlt]
  · rw [h i (Nat.le_of_not_lt hlt), mul_zero, mul_zero]

theorem cost_dotProduct_spread (v : Fin m → ℚ) :
    p.cost ⬝ᵥ B.spread v = B.costs .two ⬝ᵥ v := by
  rw [dotProduct_spread]
  rfl

/-! ## The first basis -/

@[simp] theorem artificial_columns (i : Fin m) : (artificial p).columns i = n + i := rfl

@[simp] theorem artificial_inverse : (artificial p).inverse = 1 := by
  rw [inverse, show (artificial p).columns = fun i : Fin m => n + i.val from rfl,
    basisMatrix_artificial, inv_one]

@[simp] theorem artificial_values : (artificial p).values = p.values := by
  rw [values, artificial_inverse, one_mulVec]

/-! ## Exchanging a column -/

/-- Rows of a matrix after a pivot: row `r` divided by its coefficient, and the multiple of it that
clears the column subtracted from every other row. -/
def pivotRows (N : Matrix (Fin m) (Fin m) ℚ) (d : Fin m → ℚ) (r : Fin m) :
    Matrix (Fin m) (Fin m) ℚ :=
  Matrix.of fun i k => if i = r then N r k / d r else N i k - d i * (N r k / d r)

/-- A pivot acts on `N *ᵥ v` as it does on the rows of `N`. -/
theorem pivotRows_mulVec (N : Matrix (Fin m) (Fin m) ℚ) (d : Fin m → ℚ) (r : Fin m)
    (v : Fin m → ℚ) (i : Fin m) :
    (pivotRows N d r *ᵥ v) i =
      if i = r then (N *ᵥ v) r / d r else (N *ᵥ v) i - d i * ((N *ᵥ v) r / d r) := by
  simp only [mulVec, dotProduct, pivotRows, of_apply]
  split
  · rw [Finset.sum_div]
    exact Finset.sum_congr rfl fun k _ => by ring
  · rw [Finset.sum_div, Finset.mul_sum, ← Finset.sum_sub_distrib]
    exact Finset.sum_congr rfl fun k _ => by ring

theorem pivotRows_mul_basisMatrix {j : ℕ} {r : Fin m} (h : B.coefficients j r ≠ 0) :
    pivotRows B.inverse (B.coefficients j) r * p.basisMatrix (Function.update B.columns r j) =
      1 := by
  ext i k
  -- column `k` of the product is a pivot on what the old inverse makes of column `k`
  have hcol : (pivotRows B.inverse (B.coefficients j) r *
      p.basisMatrix (Function.update B.columns r j)) i k =
      (pivotRows B.inverse (B.coefficients j) r *ᵥ
        p.column (Function.update B.columns r j k)) i := rfl
  rw [hcol, pivotRows_mulVec, one_apply]
  by_cases hk : k = r
  · subst hk
    rw [Function.update_self]
    change (if i = k then B.coefficients j k / B.coefficients j k
      else B.coefficients j i - B.coefficients j i * (B.coefficients j k / B.coefficients j k)) = _
    rw [div_self h, mul_one, sub_self]
  · rw [Function.update_of_ne hk]
    change (if i = r then B.coefficients (B.columns k) r / B.coefficients j r
      else B.coefficients (B.columns k) i -
        B.coefficients j i * (B.coefficients (B.columns k) r / B.coefficients j r)) = _
    rw [coefficients_columns, Pi.single_eq_of_ne (Ne.symm hk), zero_div, mul_zero, sub_zero,
      Pi.single_apply]
    split
    · rename_i hi
      subst hi
      rw [if_neg (Ne.symm hk)]
    · rfl

/-- The basis with column `j` in row `r`.  Its coefficient there must not be zero. -/
def exchange (j : ℕ) (r : Fin m) (h : B.coefficients j r ≠ 0) : p.Basis where
  columns := Function.update B.columns r j
  isUnit := .of_mul_eq_one_right _ (B.pivotRows_mul_basisMatrix h)

variable {B} {j : ℕ} {r : Fin m} (h : B.coefficients j r ≠ 0)

theorem exchange_columns (i : Fin m) :
    (B.exchange j r h).columns i = if i = r then j else B.columns i :=
  Function.update_apply B.columns r j i

theorem exchange_inverse :
    (B.exchange j r h).inverse = pivotRows B.inverse (B.coefficients j) r :=
  Matrix.inv_eq_left_inv (B.pivotRows_mul_basisMatrix h)

theorem exchange_mulVec (v : Fin m → ℚ) (i : Fin m) :
    ((B.exchange j r h).inverse *ᵥ v) i =
      if i = r then (B.inverse *ᵥ v) r / B.coefficients j r
      else (B.inverse *ᵥ v) i - B.coefficients j i * ((B.inverse *ᵥ v) r / B.coefficients j r) := by
  rw [exchange_inverse, pivotRows_mulVec]

theorem exchange_coefficients (k : ℕ) (i : Fin m) :
    (B.exchange j r h).coefficients k i =
      if i = r then B.coefficients k r / B.coefficients j r
      else B.coefficients k i - B.coefficients j i * (B.coefficients k r / B.coefficients j r) :=
  exchange_mulVec h (p.column k) i

theorem exchange_values (i : Fin m) :
    (B.exchange j r h).values i =
      if i = r then B.values r / B.coefficients j r
      else B.values i - B.coefficients j i * (B.values r / B.coefficients j r) :=
  exchange_mulVec h p.values i

end Basis

end StandardForm

end LinearOpt

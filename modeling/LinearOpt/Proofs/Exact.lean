import LinearOpt.Proofs.Computation
import LinearOpt.Scalar.Exact
import Mathlib.Algebra.BigOperators.Fin
import Mathlib.Algebra.Field.Rat
import Mathlib.Algebra.Order.Ring.Rat
import Mathlib.Data.Matrix.Mul

/-!
# Exact arithmetic

The operations of `Scalar` over the rationals are those of the field `ℚ`.  Addition, subtraction,
multiplication and negation always succeed, and division succeeds by anything but zero.  The
comparisons decide the order and the equality of `ℚ`.

`sumProducts_eq` and `dot_ofFn` give the two sums of the code as sums of the library.
-/

namespace LinearOpt.Exact

/-! ## Operations -/

@[simp] theorem zero_eq : (Scalar.zero : ℚ) = 0 := rfl

@[simp] theorem one_eq : (Scalar.one : ℚ) = 1 := rfl

@[simp] theorem add_eq (x y : ℚ) : Scalar.add x y = .ok (x + y) := rfl

@[simp] theorem sub_eq (x y : ℚ) : Scalar.sub x y = .ok (x - y) := rfl

@[simp] theorem mul_eq (x y : ℚ) : Scalar.mul x y = .ok (x * y) := rfl

@[simp] theorem neg_eq (x : ℚ) : Scalar.neg x = .ok (-x) := rfl

theorem div_eq (x : ℚ) {y : ℚ} (hy : y ≠ 0) : Scalar.div x y = .ok (x / y) := if_neg hy

theorem mapM_neg (xs : List ℚ) : (xs.mapM Scalar.neg : Except Fault _) = .ok (xs.map (- ·)) :=
  mapM_eq_ok fun x _ => neg_eq x

/-! ## Comparisons -/

@[simp] theorem lt_eq (x y : ℚ) : Scalar.lt x y = decide (x < y) := rfl

@[simp] theorem eq_eq (x y : ℚ) : Scalar.eq x y = decide (x = y) := rfl

@[simp] theorem isZero_eq (x : ℚ) : Scalar.isZero x = decide (x = 0) := rfl

@[simp] theorem nonzero_eq (x : ℚ) : Scalar.nonzero x = decide (x ≠ 0) := by
  rw [Scalar.nonzero, lt_eq, lt_eq, ← Bool.decide_or, zero_eq]
  exact decide_eq_decide.mpr lt_or_lt_iff_ne

/-! ## Sums -/

theorem sumProducts_eq (pairs : List (ℚ × ℚ)) :
    Scalar.sumProducts pairs = .ok (pairs.map fun p => p.1 * p.2).sum := by
  rw [Scalar.sumProducts, foldlM_eq_ok (g := fun total p => total + p.1 * p.2) _ (by simp)]
  rw [List.sum_eq_foldl, List.foldl_map, zero_eq]

theorem dot_ofFn {n : ℕ} (u v : Fin n → ℚ) :
    Scalar.dot (List.ofFn u) (List.ofFn v) = .ok (dotProduct u v) := by
  rw [Scalar.dot, require_eq_ok (by simp), ok_bind, sumProducts_eq, zip_ofFn, List.map_ofFn,
    List.sum_ofFn]
  rfl

end LinearOpt.Exact

import LinearOpt.Proofs.Exact
import LinearOpt.Proofs.Refinement.Agreement
import LinearOpt.Scalar.Bounded
import Mathlib.Data.Int.Cast.Field
import Mathlib.Data.Rat.Lemmas
import Mathlib.Tactic.FieldSimp

/-!
# Bounded rationals compute as exact ones do

Each operation of `Bounded` forms its result through words, and overflows if one of them does not
fit. If all of them fit, the result is the exact one: `refines_val`.

The operations work on numerators and denominators.  `ofFraction_agrees` gets rid of the last step,
which brings a fraction to lowest terms, so that what is left for each operation is an equation
between fractions.
-/

namespace LinearOpt.Bounded

variable {w : Width}

/-! ## Fractions -/

theorem word_bind_agrees {α β : Type} {f : α → β} {z : ℤ} {k : ℤ → Except Fault α}
    {y : Except Fault β} (h : Agrees f (k z) y) : Agrees f (w.word z >>= k) y := by
  unfold Width.word
  split
  · exact h
  · exact Or.inl rfl

theorem ofRat_agrees (x : ℚ) : Agrees val (ofRat x : Except Fault (Bounded w)) (.ok x) := by
  unfold ofRat
  split
  · exact .ok rfl
  · exact Or.inl rfl

theorem ofFraction_agrees {n d : ℤ} (hd : d ≠ 0) {x : ℚ} (h : (n : ℚ) / d = x) :
    Agrees val (ofFraction n d : Except Fault (Bounded w)) (.ok x) := by
  unfold ofFraction Exact.ofFraction
  rw [if_neg hd, ok_bind, ← h, ← Rat.divInt_eq_div]
  exact ofRat_agrees _

theorem num_div_den (x : ℚ) : (x.num : ℚ) / (x.den : ℤ) = x := by
  rw [Int.cast_natCast]
  exact x.num_div_den

theorem den_ne_zero (x : ℚ) : (x.den : ℤ) ≠ 0 := Int.natCast_ne_zero.mpr x.den_nz

/-- A fraction over a multiple of its denominator. -/
theorem expanded_div (x : ℚ) {common : ℤ} (hcommon : common ≠ 0) (h : (x.den : ℤ) ∣ common) :
    ((x.num * (common / x.den) : ℤ) : ℚ) / common = x := by
  have hden : ((x.den : ℤ) : ℚ) ≠ 0 := Int.cast_ne_zero.mpr (den_ne_zero x)
  have hne : (common : ℚ) ≠ 0 := Int.cast_ne_zero.mpr hcommon
  rw [Int.cast_mul, Int.cast_div h hden, mul_div_assoc, div_div_cancel_left' hne, ← div_eq_mul_inv,
    num_div_den]

/-- The product of two fractions, after factors were cancelled crosswise. -/
theorem cancelled_div {n d n' d' g h : ℤ} (hd : d ≠ 0) (hd' : d' ≠ 0) (hg : g ≠ 0) (hh : h ≠ 0)
    (hgn : g ∣ n) (hgd : g ∣ d') (hhn : h ∣ n') (hhd : h ∣ d) :
    ((n / g * (n' / h) : ℤ) : ℚ) / (d / h * (d' / g) : ℤ) = n / d * (n' / d') := by
  have hg0 : (g : ℚ) ≠ 0 := Int.cast_ne_zero.mpr hg
  have hh0 : (h : ℚ) ≠ 0 := Int.cast_ne_zero.mpr hh
  have hd0 : (d : ℚ) ≠ 0 := Int.cast_ne_zero.mpr hd
  have hd0' : (d' : ℚ) ≠ 0 := Int.cast_ne_zero.mpr hd'
  rw [Int.cast_mul, Int.cast_mul, Int.cast_div hgn hg0, Int.cast_div hhn hh0, Int.cast_div hhd hh0,
    Int.cast_div hgd hg0]
  field_simp

theorem ediv_mul_ediv_ne_zero {d d' g h : ℤ} (hd : d ≠ 0) (hd' : d' ≠ 0) (hgd : g ∣ d')
    (hhd : h ∣ d) : d / h * (d' / g) ≠ 0 := by
  have hquotient : ∀ {a b : ℤ}, a ≠ 0 → b ∣ a → a / b ≠ 0 := by
    intro a b ha hdvd hzero
    rw [← Int.mul_ediv_cancel' hdvd, hzero, mul_zero] at ha
    exact ha rfl
  exact mul_ne_zero (hquotient hd hhd) (hquotient hd' hgd)

/-! ## Operations -/

/-- Sums and differences are taken over the denominator that both have, or else over the least
common one. -/
theorem combine_agrees {op : ℤ → ℤ → ℤ} {exact : ℚ → ℚ → ℚ}
    (h : ∀ a b d : ℤ, (op a b : ℚ) / d = exact (a / d) (b / d)) (a b : Bounded w) :
    Agrees val (combine op a b) (.ok (exact a.val b.val)) := by
  unfold combine
  dsimp only
  split
  next hden =>
    refine word_bind_agrees (ofFraction_agrees (den_ne_zero _) ?_)
    rw [h, num_div_den, hden, num_div_den]
  next hden =>
    have hne : ((Nat.lcm a.val.den b.val.den : ℕ) : ℤ) ≠ 0 :=
      Int.natCast_ne_zero.mpr (Nat.lcm_ne_zero a.val.den_nz b.val.den_nz)
    have hleft := Int.natCast_dvd_natCast.mpr (Nat.dvd_lcm_left a.val.den b.val.den)
    have hright := Int.natCast_dvd_natCast.mpr (Nat.dvd_lcm_right a.val.den b.val.den)
    refine word_bind_agrees (word_bind_agrees (word_bind_agrees (word_bind_agrees
      (ofFraction_agrees hne ?_))))
    rw [h, expanded_div _ hne hleft, expanded_div _ hne hright]

theorem mul_agrees (a b : Bounded w) : Agrees val (mul a b) (.ok (a.val * b.val)) := by
  have hg : ((Int.gcd a.val.num b.val.den : ℕ) : ℤ) ≠ 0 := by
    rw [Int.natCast_ne_zero, Ne, Int.gcd_eq_zero_iff]
    exact fun h => den_ne_zero b.val h.2
  have hh : ((Int.gcd a.val.den b.val.num : ℕ) : ℤ) ≠ 0 := by
    rw [Int.natCast_ne_zero, Ne, Int.gcd_eq_zero_iff]
    exact fun h => den_ne_zero a.val h.1
  refine word_bind_agrees (word_bind_agrees (ofFraction_agrees ?_ ?_))
  · exact ediv_mul_ediv_ne_zero (den_ne_zero _) (den_ne_zero _) (Int.gcd_dvd_right _ _)
      (Int.gcd_dvd_left _ _)
  · rw [cancelled_div (den_ne_zero _) (den_ne_zero _) hg hh (Int.gcd_dvd_left _ _)
      (Int.gcd_dvd_right _ _) (Int.gcd_dvd_right _ _) (Int.gcd_dvd_left _ _), num_div_den,
      num_div_den]

/-- A quotient by zero has the denominator zero, unless a word overflows before. -/
theorem div_agrees (a b : Bounded w) : Agrees val (div a b) (Exact.quotient a.val b.val) := by
  have hh : ((Nat.gcd a.val.den b.val.den : ℕ) : ℤ) ≠ 0 :=
    Int.natCast_ne_zero.mpr (Nat.gcd_ne_zero_left a.val.den_nz)
  unfold Exact.quotient
  refine word_bind_agrees (word_bind_agrees (word_bind_agrees ?_))
  by_cases hb : b.val = 0
  · rw [if_pos hb, hb]
    refine Or.inr ?_
    rw [Rat.num_zero, Int.zero_ediv, mul_zero]
    rfl
  · have hnum : b.val.num ≠ 0 := Rat.num_ne_zero.mpr hb
    have hg : ((Int.gcd a.val.num b.val.num : ℕ) : ℤ) ≠ 0 := by
      rw [Int.natCast_ne_zero, Ne, Int.gcd_eq_zero_iff]
      exact fun h => hnum h.2
    have hleft := Int.natCast_dvd_natCast.mpr (Nat.gcd_dvd_left a.val.den b.val.den)
    have hright := Int.natCast_dvd_natCast.mpr (Nat.gcd_dvd_right a.val.den b.val.den)
    rw [if_neg hb]
    refine ofFraction_agrees ?_ ?_
    · exact ediv_mul_ediv_ne_zero (den_ne_zero _) hnum (Int.gcd_dvd_right _ _) hleft
    · rw [cancelled_div (den_ne_zero _) hnum hg hh (Int.gcd_dvd_left _ _) (Int.gcd_dvd_right _ _)
        hright hleft, num_div_den, ← inv_div (b.val.num : ℚ), num_div_den, ← div_eq_mul_inv]

theorem refines_val : Refines (val : Bounded w → ℚ) where
  zero_eq := rfl
  one_eq := rfl
  add := combine_agrees fun a b d => by
    push_cast
    ring
  sub := combine_agrees fun a b d => by
    push_cast
    ring
  mul := mul_agrees
  div := div_agrees
  neg a := ofRat_agrees (-a.val)
  neg_one := by cases w <;> rfl
  lt_eq _ _ := rfl
  eq_eq _ _ := rfl

end LinearOpt.Bounded

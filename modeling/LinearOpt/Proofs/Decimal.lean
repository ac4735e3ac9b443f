import LinearOpt.Decimal.Numeral
import LinearOpt.Decimal.Positional
import LinearOpt.Decimal.Shortest
import Mathlib

/-!
# What decimals stand for

A positional decimal is read as the number that it was written for, and the shortest decimal of a
binary fraction lies in the interval that it was searched in.

* `positional_of_nonneg` and `positional_of_neg` are the two forms of a positional decimal, without
  and with a point.  `Scientific.unsigned?_positional` reads both.
* `Interval.Contains` is membership of real numbers.  `Interval.scale_le_iff` compares a multiple of
  a power of ten with the ends of an interval, as `onGrid?` does in natural numbers.
* `Interval.exists_onGrid?` finds a point of any grid that is finer than the interval, and
  `Interval.ten_zpow_le` says that the search comes to such a grid before it runs out of steps.
  `Interval.shortest_around` puts these together for all doubles.
-/

namespace LinearOpt.Decimal

/-! ## Digits -/

theorem value_eq_ofDigitChars (cs : List Char) : value cs = Nat.ofDigitChars 10 cs 0 :=
  Nat.ofDigitChars_eq_foldl.symm

theorem toList_toString (n : ℕ) : (toString n).toList = Nat.toDigits 10 n := by
  rw [Nat.toString_eq_ofList_toDigits, String.toList_ofList]

theorem value_toDigits (n : ℕ) : value (Nat.toDigits 10 n) = n := by
  rw [value_eq_ofDigitChars, Nat.ofDigitChars_ten_toDigits]

theorem isDigit_of_mem_toDigits {n : ℕ} {c : Char} (h : c ∈ Nat.toDigits 10 n) :
    c.isDigit = true :=
  Nat.isDigit_of_mem_toDigits (by omega) le_rfl h

theorem value_append_zeros (cs : List Char) (n : ℕ) :
    value (cs ++ List.replicate n '0') = value cs * 10 ^ n := by
  rw [value_eq_ofDigitChars, Nat.ofDigitChars_append, Nat.ofDigitChars_replicate_zero,
    value_eq_ofDigitChars, Nat.mul_comm]

theorem value_zeros_append (n : ℕ) (cs : List Char) :
    value (List.replicate n '0' ++ cs) = value cs := by
  rw [value_eq_ofDigitChars, Nat.ofDigitChars_append, Nat.ofDigitChars_replicate_zero,
    value_eq_ofDigitChars, Nat.mul_zero]

/-! ## Positional decimals -/

namespace Scientific

variable {cs : List Char}

theorem unsigned?_whole (negative : Bool) (hne : cs ≠ []) (hdigits : ∀ c ∈ cs, c.isDigit = true) :
    unsigned? negative cs = some ⟨negative, value cs, 0⟩ := by
  unfold unsigned?
  rw [List.takeWhile_eq_self_iff.mpr hdigits, List.dropWhile_eq_nil_iff.mpr hdigits]
  simp [hne, exponent?]

theorem unsigned?_point (negative : Bool) {places : List Char} (hne : cs ≠ [])
    (hdigits : ∀ c ∈ cs, c.isDigit = true) (hplaces : ∀ c ∈ places, c.isDigit = true) :
    unsigned? negative (cs ++ '.' :: places) =
      some ⟨negative, value (cs ++ places), -places.length⟩ := by
  have hpoint : ¬('.' : Char).isDigit = true := by decide
  have htake := List.takeWhile_eq_self_iff.mpr hplaces
  have hdrop := List.dropWhile_eq_nil_iff.mpr hplaces
  unfold unsigned?
  rw [List.takeWhile_append_of_pos hdigits, List.takeWhile_cons_of_neg hpoint, List.append_nil,
    List.dropWhile_append_of_pos hdigits, List.dropWhile_cons_of_neg hpoint]
  simp [hne, htake, hdrop, exponent?]

end Scientific

theorem toList_zeros (n : ℕ) : (zeros n).toList = List.replicate n '0' := String.toList_ofList

/-- Zeros are digits. -/
theorem isDigit_of_mem_zeros {n : ℕ} {c : Char} (h : c ∈ List.replicate n '0') :
    c.isDigit = true := by
  rw [List.eq_of_mem_replicate h]
  rfl

/-- The text of a whole number has no point. -/
theorem positional_of_nonneg {power : ℤ} (h : 0 ≤ power) (digits : ℕ) :
    (positional digits power).toList =
      Nat.toDigits 10 digits ++ List.replicate power.toNat '0' := by
  unfold positional
  dsimp only
  rw [if_pos (by omega), String.toList_append, String.toList_ofList, toList_toString, toList_zeros]

/-- The text of any other number has digits on both sides of the point. -/
theorem positional_of_neg {power : ℤ} (h : power < 0) (digits : ℕ) :
    ∃ whole places : List Char, (positional digits power).toList = whole ++ '.' :: places ∧
      whole ≠ [] ∧ (∀ c ∈ whole ++ places, c.isDigit = true) ∧
      value (whole ++ places) = digits ∧ (places.length : ℤ) = -power := by
  have hwritten : ∀ c ∈ Nat.toDigits 10 digits, c.isDigit = true := fun c => isDigit_of_mem_toDigits
  unfold positional
  dsimp only
  rw [if_neg (by omega), toList_toString]
  by_cases hshort : (Nat.toDigits 10 digits).length - (-power).toNat = 0
  · refine ⟨['0'], List.replicate ((-power).toNat - (Nat.toDigits 10 digits).length) '0' ++
      Nat.toDigits 10 digits, ?_, by simp, ?_, ?_, ?_⟩
    · rw [if_pos hshort, hshort]
      simp [toList_zeros]
    · intro c hc
      rcases List.mem_append.mp hc with hc | hc
      · rw [List.mem_singleton.mp hc]
        rfl
      · rcases List.mem_append.mp hc with hc | hc
        · exact isDigit_of_mem_zeros hc
        · exact hwritten c hc
    · rw [← List.append_assoc]
      exact (value_zeros_append (_ + 1) _).trans (value_toDigits digits)
    · simp
      omega
  · refine ⟨(Nat.toDigits 10 digits).take ((Nat.toDigits 10 digits).length - (-power).toNat),
      (Nat.toDigits 10 digits).drop ((Nat.toDigits 10 digits).length - (-power).toNat),
      ?_, ?_, ?_, ?_, ?_⟩
    · rw [if_neg hshort]
      simp [zeros, show (-power).toNat - (Nat.toDigits 10 digits).length = 0 by omega]
    · simp [Nat.toDigits_ne_nil]
      omega
    · rw [List.take_append_drop]
      exact hwritten
    · rw [List.take_append_drop, value_toDigits]
    · simp
      omega

theorem mem_positional_cases {digits : ℕ} {power : ℤ} {c : Char}
    (h : c ∈ (positional digits power).toList) : c.isDigit = true ∨ c = '.' := by
  rcases le_or_gt 0 power with hpower | hpower
  · rw [positional_of_nonneg hpower] at h
    rcases List.mem_append.mp h with hwritten | hzeros
    · exact .inl (isDigit_of_mem_toDigits hwritten)
    · exact .inl (isDigit_of_mem_zeros hzeros)
  · obtain ⟨whole, places, htext, -, hdigits, -⟩ := positional_of_neg hpower digits
    rw [htext, List.mem_append, List.mem_cons] at h
    rcases h with hwhole | rfl | hplaces
    · exact .inl (hdigits c (List.mem_append_left _ hwhole))
    · exact .inr rfl
    · exact .inl (hdigits c (List.mem_append_right _ hplaces))

/-- The text of a number begins with a digit. -/
theorem positional_eq_cons (digits : ℕ) (power : ℤ) :
    ∃ c cs, (positional digits power).toList = c :: cs ∧ c.isDigit = true := by
  rcases le_or_gt 0 power with hpower | hpower
  · obtain ⟨c, cs, hwritten⟩ := List.exists_cons_of_ne_nil (Nat.toDigits_ne_nil (n := digits))
    rw [positional_of_nonneg hpower, hwritten]
    exact ⟨c, _, rfl, isDigit_of_mem_toDigits (hwritten ▸ List.mem_cons_self)⟩
  · obtain ⟨whole, places, htext, hne, hdigits, -⟩ := positional_of_neg hpower digits
    obtain ⟨c, cs, rfl⟩ := List.exists_cons_of_ne_nil hne
    exact ⟨c, _, htext, hdigits c List.mem_cons_self⟩

namespace Scientific

/-- The absolute value of the number. -/
noncomputable def magnitude (s : Scientific) : ℝ := s.digits * 10 ^ s.exponent

/-- The text of a number is read as that number. -/
theorem unsigned?_positional (negative : Bool) (digits : ℕ) (power : ℤ) :
    ∃ s, unsigned? negative (positional digits power).toList = some s ∧ s.negative = negative ∧
      s.magnitude = digits * 10 ^ power := by
  rcases le_or_gt 0 power with hpower | hpower
  · have hdigits : ∀ c ∈ Nat.toDigits 10 digits ++ List.replicate power.toNat '0',
        c.isDigit = true := by
      intro c hc
      rcases List.mem_append.mp hc with hwritten | hzeros
      · exact isDigit_of_mem_toDigits hwritten
      · exact isDigit_of_mem_zeros hzeros
    rw [positional_of_nonneg hpower, unsigned?_whole negative (by simp [Nat.toDigits_ne_nil])
      hdigits]
    refine ⟨_, rfl, rfl, ?_⟩
    rw [magnitude, value_append_zeros, value_toDigits, zpow_zero, mul_one, Nat.cast_mul,
      Nat.cast_pow, Nat.cast_ofNat, ← zpow_natCast, Int.toNat_of_nonneg hpower]
  · obtain ⟨whole, places, htext, hne, hdigits, hvalue, hlength⟩ := positional_of_neg hpower digits
    rw [htext, unsigned?_point negative hne (fun c hc => hdigits c (List.mem_append_left _ hc))
      fun c hc => hdigits c (List.mem_append_right _ hc)]
    refine ⟨_, rfl, rfl, ?_⟩
    rw [magnitude, hvalue, hlength, neg_neg]

theorem ofChars?_positional (digits : ℕ) (power : ℤ) :
    ∃ s, ofChars? (positional digits power).toList = some s ∧ s.negative = false ∧
      s.magnitude = digits * 10 ^ power := by
  obtain ⟨c, cs, htext, hc⟩ := positional_eq_cons digits power
  -- neither sign is a digit
  have hunsigned : ofChars? (c :: cs) = unsigned? false (c :: cs) := by
    unfold ofChars?
    split
    · rename_i heq
      cases heq
      cases hc
    · rename_i heq
      cases heq
      cases hc
    · rfl
  rw [htext, hunsigned, ← htext]
  exact unsigned?_positional false digits power

end Scientific

/-! ## The shortest decimal -/

/-- The real number `mantissa * 2 ^ exponent`. -/
noncomputable def binary (mantissa exponent : ℤ) : ℝ := mantissa * 2 ^ exponent

theorem binary_neg (mantissa exponent : ℤ) :
    binary (-mantissa) exponent = -binary mantissa exponent := by
  rw [binary, binary, Int.cast_neg, neg_mul]

namespace Interval

/-- Whether a real number belongs to the interval. -/
def Contains (i : Interval) (r : ℝ) : Prop :=
  if i.closed then i.low * 2 ^ i.unit ≤ r ∧ r ≤ i.high * 2 ^ i.unit
  else i.low * 2 ^ i.unit < r ∧ r < i.high * 2 ^ i.unit

variable {i : Interval} {power : ℤ}

theorem pow_toNat {a : ℝ} (ha : a ≠ 0) (n : ℤ) : a ^ n.toNat = a ^ n * a ^ (-n).toNat := by
  rw [← zpow_natCast, ← zpow_natCast, ← zpow_add₀ ha]
  congr 1
  omega

theorem scale_pos (i : Interval) (power : ℤ) : 0 < (i.scale power).1 ∧ 0 < (i.scale power).2 :=
  ⟨Nat.mul_pos (Nat.pow_pos (by omega)) (Nat.pow_pos (by omega)),
    Nat.mul_pos (Nat.pow_pos (by omega)) (Nat.pow_pos (by omega))⟩

theorem scale_eq (i : Interval) (power : ℤ) :
    ((i.scale power).1 : ℝ) * 2 ^ i.unit = (i.scale power).2 * 10 ^ power := by
  have hpower := pow_toNat (a := 10) (by norm_num) power
  have hunit := pow_toNat (a := 2) (by norm_num) i.unit
  simp only [scale, Nat.pow_eq]
  push_cast
  rw [hpower, hunit]
  ring

/-- Multiples of the two units are compared after scaling. -/
theorem scale_le_iff (i : Interval) (power : ℤ) (x y : ℕ) :
    (y * (i.scale power).2 ≤ x * (i.scale power).1 ↔ (y : ℝ) * 2 ^ i.unit ≤ x * 10 ^ power) ∧
      (x * (i.scale power).1 ≤ y * (i.scale power).2 ↔ (x : ℝ) * 10 ^ power ≤ y * 2 ^ i.unit) := by
  have hdown : (0 : ℝ) < (i.scale power).2 := Nat.cast_pos.mpr (i.scale_pos power).2
  have htwo : (0 : ℝ) < 2 ^ i.unit := zpow_pos two_pos i.unit
  have hleft : ((y * (i.scale power).2 : ℕ) : ℝ) * 2 ^ i.unit =
      y * 2 ^ i.unit * (i.scale power).2 := by
    push_cast
    ring
  have hright : ((x * (i.scale power).1 : ℕ) : ℝ) * 2 ^ i.unit =
      x * 10 ^ power * (i.scale power).2 := by
    push_cast
    rw [mul_assoc, scale_eq]
    ring
  constructor
  · rw [← Nat.cast_le (α := ℝ), ← mul_le_mul_iff_left₀ htwo, hleft, hright,
      mul_le_mul_iff_left₀ hdown]
  · rw [← Nat.cast_le (α := ℝ), ← mul_le_mul_iff_left₀ htwo, hleft, hright,
      mul_le_mul_iff_left₀ hdown]

/-- Whether a multiple of `10 ^ power` belongs to the interval, as `onGrid?` finds out. -/
def inside (i : Interval) (power : ℤ) (x : ℕ) : Bool :=
  if i.closed then
    i.low * (i.scale power).2 ≤ x * (i.scale power).1 &&
      x * (i.scale power).1 ≤ i.high * (i.scale power).2
  else
    i.low * (i.scale power).2 < x * (i.scale power).1 &&
      x * (i.scale power).1 < i.high * (i.scale power).2

theorem inside_iff {x : ℕ} : i.inside power x = true ↔ i.Contains (x * 10 ^ power) := by
  have hlow := i.scale_le_iff power x i.low
  have hhigh := i.scale_le_iff power x i.high
  unfold inside Contains
  split
  · rw [Bool.and_eq_true, decide_eq_true_iff, decide_eq_true_iff, hlow.1, hhigh.2]
  · rw [Bool.and_eq_true, decide_eq_true_iff, decide_eq_true_iff, ← not_le, ← not_le, hlow.2,
      hhigh.1, not_le, not_le]

/-- The point of the grid next below the value. -/
def below (i : Interval) (power : ℤ) : ℕ := i.value * (i.scale power).2 / (i.scale power).1

theorem onGrid?_cases (i : Interval) (power : ℤ) :
    (∃ x, i.onGrid? power = some x ∧ i.inside power x = true) ∨
      (i.onGrid? power = none ∧ i.inside power (i.below power) = false ∧
        i.inside power (i.below power + 1) = false) := by
  unfold onGrid?
  dsimp only
  split
  · rename_i hbelow habove
    refine .inl ⟨_, rfl, ?_⟩
    split
    · exact hbelow
    · exact habove
  · rename_i hbelow _
    exact .inl ⟨_, rfl, hbelow⟩
  · rename_i _ habove
    exact .inl ⟨_, rfl, habove⟩
  · rename_i hbelow habove
    exact .inr ⟨rfl, hbelow, habove⟩

/-- A grid that is finer than the interval has a point in it. -/
theorem exists_onGrid? (hlow : i.low < i.value) (hhigh : i.value < i.high)
    (h : (10 : ℝ) ^ power < (i.high - i.low : ℕ) * 2 ^ i.unit) :
    ∃ x, i.onGrid? power = some x ∧ i.inside power x = true := by
  refine (i.onGrid?_cases power).resolve_right fun ⟨_, hbelow, habove⟩ => ?_
  have hfine : (i.scale power).1 < (i.high - i.low) * (i.scale power).2 := by
    have hunit := (i.scale_le_iff power 1 (i.high - i.low)).1.not
    rw [not_le, not_le, Nat.cast_one, one_mul, one_mul] at hunit
    exact hunit.mpr h
  have hdown := (i.scale_pos power).2
  have hle : i.below power * (i.scale power).1 ≤ i.value * (i.scale power).2 :=
    Nat.div_mul_le_self _ _
  have hlt : i.value * (i.scale power).2 < (i.below power + 1) * (i.scale power).1 :=
    Nat.lt_mul_of_div_lt (Nat.lt_succ_self _) (i.scale_pos power).1
  have hlow' := Nat.mul_lt_mul_of_pos_right hlow hdown
  have hhigh' := Nat.mul_lt_mul_of_pos_right hhigh hdown
  rw [Nat.sub_mul] at hfine
  rw [Nat.succ_mul] at hlt
  unfold inside at hbelow habove
  rw [Nat.succ_mul] at habove
  split at hbelow
  · rw [if_pos ‹_›] at habove
    simp only [Bool.and_eq_false_iff, decide_eq_false_iff_not] at hbelow habove
    omega
  · rw [if_neg ‹_›] at habove
    simp only [Bool.and_eq_false_iff, decide_eq_false_iff_not] at hbelow habove
    omega

/-- The search succeeds if one of its grids has a point in the interval. -/
theorem search_eq {steps k : ℕ} (hk : k < steps)
    (h : ∃ x, i.onGrid? (power - k) = some x ∧ i.inside (power - k) x = true) :
    ∃ x q, i.search steps power = (x, q) ∧ i.inside q x = true := by
  induction steps generalizing power k with
  | zero => omega
  | succ steps ih =>
    unfold search
    rcases i.onGrid?_cases power with ⟨x, hgrid, hinside⟩ | ⟨hgrid, -⟩
    · rw [hgrid]
      exact ⟨x, power, rfl, hinside⟩
    · rw [hgrid]
      cases k with
      | zero =>
        obtain ⟨x, hx, -⟩ := h
        rw [Nat.cast_zero, sub_zero, hgrid] at hx
        cases hx
      | succ k =>
        refine ih (k := k) (by omega) ?_
        rwa [sub_sub, add_comm 1, ← Nat.cast_succ]

/-- Powers of two bases are compared by any two of them that are close. -/
theorem pow_le_pow_of_mul_le {a b c d n k : ℕ} (h : a ^ c ≤ b ^ d) (hb : 0 < b) (hc : c ≠ 0)
    (hnk : d * n ≤ c * k) : a ^ n ≤ b ^ k := by
  refine le_of_pow_le_pow_left₀ hc (Nat.zero_le _) ?_
  calc (a ^ n) ^ c = (a ^ c) ^ n := by rw [← pow_mul, ← pow_mul, Nat.mul_comm]
    _ ≤ (b ^ d) ^ n := Nat.pow_le_pow_left h n
    _ = b ^ (d * n) := (pow_mul b d n).symm
    _ ≤ b ^ (c * k) := Nat.pow_le_pow_right hb hnk
    _ = (b ^ k) ^ c := by rw [← pow_mul, Nat.mul_comm]

/-- The slope is the decimal logarithm of two as in `topPower`, which is a little too large. -/
theorem ten_zpow_le {q u : ℤ} (hlow : -2000 ≤ u) (hhigh : u ≤ 2000)
    (h : 100000 * q + 400000 ≤ 30103 * u) : (10 : ℝ) ^ q ≤ 2 ^ u := by
  rcases le_or_gt 0 q with hq | hq
  · lift q to ℕ using hq
    lift u to ℕ using by omega
    have hpow : 10 ^ q ≤ 2 ^ u :=
      pow_le_pow_of_mul_le (c := 3) (d := 10) (by norm_num) (by omega) (by omega) (by omega)
    rw [zpow_natCast, zpow_natCast]
    exact_mod_cast hpow
  · rcases le_or_gt 0 u with hu | hu
    · exact (zpow_le_one_of_nonpos₀ (by norm_num) hq.le).trans (one_le_zpow₀ (by norm_num) hu)
    · obtain ⟨n, rfl⟩ := Int.exists_eq_neg_ofNat hq.le
      obtain ⟨k, rfl⟩ := Int.exists_eq_neg_ofNat hu.le
      have hpow : 2 ^ k ≤ 10 ^ n :=
        pow_le_pow_of_mul_le (c := 33) (d := 10) (by norm_num) (by omega) (by omega) (by omega)
      rw [zpow_neg, zpow_neg, zpow_natCast, zpow_natCast]
      exact inv_anti₀ (by positivity) (by exact_mod_cast hpow)

/-- The shortest decimal lies in the interval of its double. -/
theorem shortest_around {mantissa : ℕ} {exponent : ℤ} (hpos : 0 < mantissa)
    (hmantissa : mantissa < 2 ^ 53) (hlow : -1074 ≤ exponent) (hhigh : exponent ≤ 971)
    (narrow : Bool) :
    ∃ digits power, (around mantissa exponent narrow).shortest = (digits, power) ∧
      (around mantissa exponent narrow).Contains (digits * 10 ^ power) := by
  set i := around mantissa exponent narrow with hi
  have hlog : i.high.log2 < 55 := by
    rw [Nat.log2_lt (by simp [hi, around])]
    simp only [hi, around]
    omega
  have hwidth : 3 ≤ i.high - i.low := by
    simp only [hi, around]
    split <;> omega
  have hunit : i.unit = exponent - 2 := rfl
  have htop : (10 : ℝ) ^ (i.topPower - 23) ≤ 2 ^ i.unit := by
    refine ten_zpow_le (by omega) (by omega) ?_
    unfold topPower
    omega
  have hgrid : ∃ x, i.onGrid? (i.topPower - (23 : ℕ)) = some x ∧
      i.inside (i.topPower - (23 : ℕ)) x = true := by
    refine exists_onGrid? ?_ ?_ (htop.trans_lt ?_)
    · simp only [hi, around]
      split <;> omega
    · simp only [hi, around]
      omega
    · have hthree : (3 : ℝ) ≤ (i.high - i.low : ℕ) := by exact_mod_cast hwidth
      nlinarith [zpow_pos (two_pos : (0 : ℝ) < 2) i.unit]
  obtain ⟨digits, power, hsearch, hinside⟩ := search_eq (show 23 < 24 by omega) hgrid
  exact ⟨digits, power, hsearch, inside_iff.mp hinside⟩

end Interval

end LinearOpt.Decimal

import LinearOpt.Proofs.Decimal
import LinearOpt.Proofs.Mps.Reading
import LinearOpt.Scalar.Binary64

/-!
# What doubles stand for

The text of a double is read as that double again, whatever its bits are.

* `Canonical` says which mantissas and exponents a finite double can have, and `interval` is the
  interval of the real numbers that round to it.  These intervals are disjoint (`eq_of_contains`):
  of two neighbours, only the one with the even mantissa has the number between them.
* `readWord` reads a decimal and rounds it, and knows nothing of how doubles are written.
* `finite_of_unpack` finds the interval from the bits, as the text does, and the lemmas below it say
  what the text of each kind of double is.
* `readWord_text` puts these together: the shortest decimal of a double lies in its interval, and in
  no other.  `denotation` collects what is used of doubles elsewhere.
-/

namespace LinearOpt

namespace Binary64

open Decimal Decimal.Interval
open Float.Model UnpackedFloat

/-! ## Finite doubles -/

/-- What the mantissa and the exponent of a finite double that is not zero can be. -/
structure Canonical (mantissa : ℕ) (exponent : ℤ) : Prop where
  pos : 0 < mantissa
  lt : mantissa < 2 ^ 53
  low : -1074 ≤ exponent
  high : exponent ≤ 971
  normal : exponent = -1074 ∨ 2 ^ 52 ≤ mantissa

/-- The interval of the real numbers that round to `mantissa * 2 ^ exponent`. -/
def interval (mantissa : ℕ) (exponent : ℤ) : Decimal.Interval :=
  .around mantissa exponent (mantissa == 2 ^ 52 && exponent != -1074)

section Intervals

variable {m m' : ℕ} {e e' : ℤ} {r : ℝ}

/-- The upper end belongs to the interval only if the mantissa is even. -/
theorem le_of_contains (h : (interval m e).Contains r) :
    r ≤ (4 * m + 2) * 2 ^ (e - 2) ∧ (m % 2 = 1 → r < (4 * m + 2) * 2 ^ (e - 2)) := by
  have hhigh : ((interval m e).high : ℝ) = 4 * m + 2 := by
    simp [interval, around]
  have hclosed : (interval m e).closed = (m % 2 == 0) := rfl
  have hunit : (interval m e).unit = e - 2 := rfl
  unfold Contains at h
  rw [hhigh, hclosed, hunit] at h
  split at h
  · rename_i heven
    exact ⟨h.2, fun hodd => by simp [hodd] at heven⟩
  · exact ⟨h.2.le, fun _ => h.2⟩

/-- The lower end of an interval is at least the upper end of the one before it. -/
theorem low_le_of_contains (h : (interval m e).Contains r) (low : ℕ)
    (hlow : low ≤ (interval m e).low) :
    low * 2 ^ (e - 2) ≤ r ∧ (m % 2 = 1 → low * 2 ^ (e - 2) < r) := by
  have hle : (low : ℝ) * 2 ^ (e - 2) ≤ (interval m e).low * 2 ^ (e - 2) :=
    mul_le_mul_of_nonneg_right (Nat.cast_le.mpr hlow) (by positivity)
  have hclosed : (interval m e).closed = (m % 2 == 0) := rfl
  have hunit : (interval m e).unit = e - 2 := rfl
  unfold Contains at h
  rw [hclosed, hunit] at h
  split at h
  · rename_i heven
    exact ⟨hle.trans h.1, fun hodd => by simp [hodd] at heven⟩
  · exact ⟨hle.trans h.1.le, fun _ => hle.trans_lt h.1⟩

/-- Doubles of the same exponent share no real number. -/
theorem not_contains_of_mantissa_lt (hlt : m < m') (h : (interval m e).Contains r) :
    ¬(interval m' e).Contains r := by
  intro h'
  have hunit : (0 : ℝ) < 2 ^ (e - 2) := zpow_pos two_pos _
  have hlow : 4 * m' - 2 ≤ (interval m' e).low := by
    simp only [interval, around]
    split <;> omega
  obtain ⟨hle, hodd⟩ := le_of_contains h
  rcases Nat.mod_two_eq_zero_or_one m with heven | hm
  · rcases Nat.mod_two_eq_zero_or_one m' with heven' | hm'
    · -- there is another double between them
      have hle' := (low_le_of_contains h' (4 * m + 3) (by omega)).1
      push_cast at hle'
      nlinarith
    · have hlt' := (low_le_of_contains h' (4 * m + 2) (by omega)).2 hm'
      push_cast at hlt'
      exact (hlt'.trans_le hle).false
  · have hle' := (low_le_of_contains h' (4 * m + 2) (by omega)).1
    push_cast at hle'
    exact ((hodd hm).trans_le hle').false

/-- A double with a larger exponent has the largest mantissas below it. -/
theorem not_contains_of_exponent_lt (hm : Canonical m e) (hm' : Canonical m' e') (hlt : e < e')
    (h : (interval m e).Contains r) : ¬(interval m' e').Contains r := by
  intro h'
  have hunit : (0 : ℝ) < 2 ^ (e - 2) := zpow_pos two_pos _
  have hdouble : (2 : ℝ) * 2 ^ (e - 2) ≤ 2 ^ (e' - 2) := by
    rw [← zpow_one_add₀ two_ne_zero]
    exact zpow_le_zpow_right₀ one_le_two (by omega)
  have hnormal : 2 ^ 52 ≤ m' := hm'.normal.resolve_left (by have := hm.low; omega)
  have hlow : 2 ^ 54 - 1 ≤ (interval m' e').low := by
    have hexponent : (e' != -1074) = true := bne_iff_ne.mpr (by have := hm.low; omega)
    simp only [interval, around, hexponent, Bool.and_true]
    split <;> rename_i hnarrow
    · omega
    · rw [beq_iff_eq] at hnarrow
      omega
  have hle' := (low_le_of_contains h' (2 ^ 54 - 1) hlow).1
  push_cast at hle'
  obtain ⟨hle, hodd⟩ := le_of_contains h
  have hlt := hm.lt
  rcases Nat.mod_two_eq_zero_or_one m with heven | hm1
  · have hlast : (m : ℝ) + 2 ≤ 2 ^ 53 := by exact_mod_cast (by omega : m + 2 ≤ 2 ^ 53)
    nlinarith
  · have hlast : (m : ℝ) + 1 ≤ 2 ^ 53 := by exact_mod_cast (by omega : m + 1 ≤ 2 ^ 53)
    have hlt' := hodd hm1
    nlinarith

/-- A real number rounds to one double at most. -/
theorem eq_of_contains (hm : Canonical m e) (hm' : Canonical m' e')
    (h : (interval m e).Contains r) (h' : (interval m' e').Contains r) : m = m' ∧ e = e' := by
  rcases lt_trichotomy e e' with hlt | rfl | hgt
  · exact absurd h' (not_contains_of_exponent_lt hm hm' hlt h)
  · rcases lt_trichotomy m m' with hlt | rfl | hgt
    · exact absurd h' (not_contains_of_mantissa_lt hlt h)
    · exact ⟨rfl, rfl⟩
    · exact absurd h (not_contains_of_mantissa_lt hgt h')
  · exact absurd h (not_contains_of_exponent_lt hm' hm hgt h')

/-- Zero does not round to any other double. -/
theorem not_contains_zero (hm : Canonical m e) : ¬(interval m e).Contains 0 := by
  intro h
  have hlow : 1 ≤ (interval m e).low := by
    have := hm.pos
    simp only [interval, around]
    split <;> omega
  have hle := (low_le_of_contains h 1 hlow).1
  have hunit : (0 : ℝ) < 2 ^ (e - 2) := zpow_pos two_pos _
  push_cast at hle
  linarith

end Intervals

/-! ## Reading numerals -/

/-- The value of the double that a positive real number rounds to. -/
def RoundsTo (r x : ℝ) : Prop :=
  ∃ m e, Canonical m e ∧ (interval m e).Contains r ∧ x = binary m e

open Classical in
/-- A real number that is rounded to a double.  What is too small becomes zero, and what is too
large becomes infinite. -/
noncomputable def round (r : ℝ) : EReal :=
  if h : ∃ x, RoundsTo r x then (h.choose : ℝ) else if r < 1 then 0 else ⊤

/-- What a word stands for: a decimal is rounded to a double, and all other words but the infinities
are no numbers. -/
noncomputable def readWord (word : String) : EReal :=
  match Scientific.ofChars? word.toList with
  | some s => if s.negative then -round s.magnitude else round s.magnitude
  | none => if word = "-inf" then ⊥ else ⊤

theorem round_eq {m : ℕ} {e : ℤ} {r : ℝ} (hm : Canonical m e) (h : (interval m e).Contains r) :
    round r = binary m e := by
  have hexists : ∃ x, RoundsTo r x := ⟨_, m, e, hm, h, rfl⟩
  obtain ⟨m', e', hm', h', hx⟩ := hexists.choose_spec
  obtain ⟨rfl, rfl⟩ := eq_of_contains hm hm' h h'
  rw [round, dif_pos hexists, hx]

theorem round_zero : round 0 = 0 := by
  have hnone : ¬∃ x, RoundsTo 0 x := by
    rintro ⟨-, m, e, hm, h, -⟩
    exact not_contains_zero hm h
  rw [round, dif_neg hnone, if_pos one_pos]

/-! ## The parts of a double -/

/-- The bits that a double packs its parts into. -/
def bits (x : Float) : BitVec Format.binary64.numBits := x.toBits.toBitVec

theorem unpack_eq (x : Float) : x.toModel.unpack = unpack .binary64 (bits x) := rfl

/-- The sign of a double. -/
def signOf (x : Float) : Sign := Sign.ofBitVec (unpackSign (bits x))

theorem toNat_exponent (x : Float) :
    (x.toBits >>> 52 &&& 0x7ff).toNat = (unpackExponent (bits x)).toNat := by
  rw [unpackExponent_def, BitVec.extractLsb'_toNat, UInt64.toNat_and, UInt64.toNat_shiftRight]
  exact Nat.and_two_pow_sub_one_eq_mod _ 11

theorem toNat_mantissa (x : Float) :
    (x.toBits &&& 0xfffffffffffff).toNat = (unpackMantissa (bits x)).toNat := by
  rw [unpackMantissa_def, BitVec.extractLsb'_toNat, UInt64.toNat_and]
  exact Nat.and_two_pow_sub_one_eq_mod _ 52

theorem isNegative_eq (x : Float) : isNegative x = (signOf x == .negative) := by
  have htop : (x.toBits >>> 63).toNat = (unpackSign (bits x)).toNat := by
    rw [unpackSign_def, BitVec.extractLsb'_toNat, UInt64.toNat_shiftRight]
    have := x.toBits.toNat_lt
    change x.toBits.toNat >>> 63 = x.toBits.toNat >>> 63 % 2
    rw [Nat.shiftRight_eq_div_pow]
    omega
  have hsign : isNegative x = ((unpackSign (bits x)).toNat == 1) := by
    rw [← htop, Bool.eq_iff_iff, isNegative, beq_iff_eq, beq_iff_eq, ← UInt64.toNat_inj]
    rfl
  rw [hsign, signOf, Sign.ofBitVec]
  generalize unpackSign (bits x) = b
  revert b
  decide

/-- The interval is narrow if the bits of the mantissa are zero and there is a smaller exponent. -/
theorem interval_normal (mantissa exponent : ℕ) :
    around (mantissa + 0x10000000000000) ((exponent : ℤ) - 1075) (mantissa == 0 && exponent != 1) =
      interval (mantissa + 2 ^ 52) ((exponent : ℤ) - 1075) := by
  have hnarrow : (mantissa == 0 && exponent != 1) =
      (mantissa + 2 ^ 52 == 2 ^ 52 && (exponent : ℤ) - 1075 != -1074) := by
    rw [Bool.eq_iff_iff]
    simp only [Bool.and_eq_true, beq_iff_eq, bne_iff_ne]
    omega
  rw [hnarrow]
  rfl

theorem finite_of_unpack {x : Float} {s : Sign} {m : ℕ} {e : ℤ} {hm : 0 < m}
    (hx : x.toModel.unpack = .finite s m e hm) :
    Canonical m e ∧ intervalOf x = interval m e ∧ s = signOf x := by
  have hbias : (Format.binary64.exponentBias : ℤ) = 1023 := rfl
  have hE : (unpackExponent (bits x)).toNat < 2048 := (unpackExponent (bits x)).isLt
  have hM : (unpackMantissa (bits x)).toNat < 2 ^ 52 := (unpackMantissa (bits x)).isLt
  rw [unpack_eq, UnpackedFloat.unpack] at hx
  unfold intervalOf
  simp only [toNat_exponent, toNat_mantissa]
  simp only [hbias] at hx
  split at hx
  · split at hx <;> cases hx
  · rename_i hmax
    have hmax' : (unpackExponent (bits x)).toNat ≠ 2047 := fun h =>
      hmax (BitVec.eq_of_toNat_eq h)
    split at hx
    · rename_i hzero
      have hzero' : (unpackExponent (bits x)).toNat = 0 := by
        rw [hzero]
        rfl
      split at hx
      · cases hx
      · cases hx
        rw [hzero', if_pos rfl]
        exact ⟨⟨hm, by omega, by decide, by decide, .inl rfl⟩, by simp [interval], rfl⟩
    · rename_i hnormal
      have hnormal' : (unpackExponent (bits x)).toNat ≠ 0 := fun h =>
        hnormal (BitVec.eq_of_toNat_eq h)
      have hmantissa : (1#1 ++ unpackMantissa (bits x)).toNat =
          (unpackMantissa (bits x)).toNat + 2 ^ 52 := by
        rw [BitVec.toNat_append, ← Nat.shiftLeft_add_eq_or_of_lt hM, Nat.shiftLeft_eq, Nat.add_comm]
        rfl
      cases hx
      rw [if_neg hnormal']
      refine ⟨⟨hm, ?_, ?_, ?_, ?_⟩, ?_, rfl⟩
      · omega
      · omega
      · omega
      · omega
      · have hshift : ((unpackExponent (bits x)).toNat : ℤ) - (1023 + (52 : ℕ)) =
            (unpackExponent (bits x)).toNat - 1075 := by omega
        rw [hmantissa, hshift]
        exact interval_normal _ _

theorem infinity_of_unpack {x : Float} {s : Sign} (hx : x.toModel.unpack = .infinity s) :
    s = signOf x := by
  rw [unpack_eq, UnpackedFloat.unpack] at hx
  dsimp only at hx
  split at hx
  · split at hx
    · exact (UnpackedFloat.infinity.inj hx).symm
    · cases hx
  · split at hx
    · split at hx <;> cases hx
    · cases hx

/-- Only the sign of a double depends on the sign. -/
theorem exists_packComponents (m : ℕ) (e : ℤ) (hm : 0 < m) :
    ∃ E M, ∀ s,
      UnpackedFloat.pack .binary64 (.finite s m e hm) = packComponents .binary64 s E M := by
  by_cases hlarge : 2 ^ Format.binary64.exponentBits ≤
      (e + Format.binary64.exponentBias + Format.binary64.mantissaBitsWithoutImplicit).toNat + 1
  · exact ⟨_, _, fun s => if_pos hlarge⟩
  · by_cases hnormal : m.log2 + 1 = Format.binary64.mantissaBits
    · exact ⟨_, _, fun s => (if_neg hlarge).trans (if_pos hnormal)⟩
    · exact ⟨_, _, fun s => (if_neg hlarge).trans (if_neg hnormal)⟩

theorem unpack_packComponents {s t : Sign} {m : ℕ} {e : ℤ} {hm : 0 < m}
    {E : BitVec Format.binary64.exponentBits}
    {M : BitVec Format.binary64.mantissaBitsWithoutImplicit}
    (h : UnpackedFloat.unpack .binary64 (packComponents .binary64 s E M) = .finite s m e hm) :
    UnpackedFloat.unpack .binary64 (packComponents .binary64 t E M) = .finite t m e hm := by
  rw [UnpackedFloat.unpack] at h ⊢
  simp only [unpackExponent_packComponents, unpackMantissa_packComponents,
    unpackSign_packComponents, Sign.ofBitVec_toBitVec] at h ⊢
  split_ifs at h ⊢
  · cases h
    rfl
  · cases h
    rfl

theorem unpack_neg {x : Float} {s : Sign} {m : ℕ} {e : ℤ} {hm : 0 < m}
    (hx : x.toModel.unpack = .finite s m e hm) : (-x).toModel.unpack = .finite (-s) m e hm := by
  obtain ⟨E, M, hpack⟩ := exists_packComponents m e hm
  have hbits : bits x = packComponents .binary64 s E M := by
    rw [← hpack, ← hx]
    exact (pack_unpack_of_valid x.toModel.valid).symm
  have hneg : (-x).toModel.unpack =
      UnpackedFloat.unpack .binary64 (UnpackedFloat.pack .binary64 x.toModel.unpack.neg) := rfl
  rw [hneg, hx, UnpackedFloat.neg, hpack]
  rw [unpack_eq, hbits] at hx
  exact unpack_packComponents hx

/-! ## Texts -/

theorem beq_eq (x y : Float) : (x == y) = x.toModel.unpack.beq y.toModel.unpack := rfl

theorem unpack_sub_self (x : Float) :
    (x - x).toModel.unpack = UnpackedFloat.unpack .binary64
      (UnpackedFloat.pack .binary64 (.sub .binary64 x.toModel.unpack x.toModel.unpack)) := rfl

theorem ne_self_iff (x : Float) : (x != x) = true ↔ x.toModel.unpack = .notANumber := by
  rw [bne, Bool.not_eq_true', ← Bool.not_eq_true, beq_eq, beq_iff_ne_notANumber_and_eq]
  simp

theorem beq_zero_iff (x : Float) : (x == 0) = true ↔ ∃ s, x.toModel.unpack = .zero s := by
  have hzero : (0 : Float).toModel.unpack = .zero .positive := rfl
  rw [beq_eq, hzero, beq_iff_ne_notANumber_and_eq]
  constructor
  · rintro ⟨-, -, h | ⟨-, h⟩ | ⟨h, -⟩⟩
    · exact ⟨_, h⟩
    · cases h
    · exact ⟨_, h⟩
  · rintro ⟨s, h⟩
    rw [h]
    cases s <;> simp

theorem isFinite_of_finite {x : Float} {s : Sign} {m : ℕ} {e : ℤ} {hm : 0 < m}
    (hx : x.toModel.unpack = .finite s m e hm) : isFinite x = true := by
  refine (beq_zero_iff _).mpr ⟨.positive, ?_⟩
  have hsub : UnpackedFloat.sub .binary64 (.finite s m e hm) (.finite s m e hm) =
      .zero .positive := by
    simp [UnpackedFloat.sub, UnpackedFloat.normalize]
  rw [unpack_sub_self, hx, hsub]
  exact unpack_packedZero

theorem isFinite_of_infinity {x : Float} {s : Sign} (hx : x.toModel.unpack = .infinity s) :
    isFinite x = false := by
  have hsub : UnpackedFloat.sub .binary64 (.infinity s) (.infinity s) = .notANumber := by
    cases s <;> rfl
  have hnan : (x - x).toModel.unpack = .notANumber := by
    rw [unpack_sub_self, hx, hsub]
    exact unpack_packedNaN
  rw [isFinite, ← Bool.not_eq_true, beq_zero_iff, hnan]
  simp

/-- The text of a positive double. -/
def positionalText (m : ℕ) (e : ℤ) : String :=
  positional (interval m e).shortest.1 (interval m e).shortest.2

section Texts

variable {x : Float} {s : Sign}

theorem text_of_notANumber (hx : x.toModel.unpack = .notANumber) : text x = "NaN" :=
  if_pos ((ne_self_iff x).mpr hx)

theorem text_of_zero (hx : x.toModel.unpack = .zero s) : text x = "0" ∨ text x = "-0" := by
  have hnumber : ¬(x != x) = true := by
    rw [ne_self_iff, hx]
    simp
  unfold text
  rw [if_neg hnumber, if_pos ((beq_zero_iff x).mpr ⟨s, hx⟩)]
  cases isNegative x
  · exact .inl rfl
  · exact .inr rfl

/-- The text of a double that is neither zero nor a NaN. -/
theorem text_of_ne (hnumber : x.toModel.unpack ≠ .notANumber)
    (hzero : ∀ s, x.toModel.unpack ≠ .zero s) :
    text x =
      if !isFinite x then (if signOf x == .negative then "-inf" else "inf")
      else if signOf x == .negative then "-" ++ positiveText (-x)
      else positiveText x := by
  unfold text
  rw [if_neg ((ne_self_iff x).not.mpr hnumber),
    if_neg ((beq_zero_iff x).not.mpr (not_exists.mpr hzero)), isNegative_eq]

theorem text_of_infinity (hx : x.toModel.unpack = .infinity s) :
    text x = if s == .negative then "-inf" else "inf" := by
  rw [text_of_ne (by simp [hx]) (by simp [hx]), isFinite_of_infinity hx, ← infinity_of_unpack hx]
  rfl

theorem text_of_finite {m : ℕ} {e : ℤ} {hm : 0 < m} (hx : x.toModel.unpack = .finite s m e hm) :
    text x = if s == .negative then "-" ++ positionalText m e else positionalText m e := by
  have hpositive : ∀ {y : Float} {s : Sign}, y.toModel.unpack = .finite s m e hm →
      positiveText y = positionalText m e := by
    intro y s hy
    unfold positiveText
    rw [(finite_of_unpack hy).2.1]
    rfl
  rw [text_of_ne (by simp [hx]) (by simp [hx]), isFinite_of_finite hx, ← (finite_of_unpack hx).2.2,
    hpositive hx, hpositive (unpack_neg hx)]
  rfl

end Texts

/-! ## Values -/

/-- The value of a double that was taken apart.  A NaN is no real number, just like an infinity. -/
noncomputable def unpackedValue : UnpackedFloat → EReal
  | .infinity .positive => ⊤
  | .infinity .negative => ⊥
  | .notANumber => ⊤
  | .zero _ => 0
  | .finite sign mantissa exponent _ => binary (sign.apply mantissa) exponent

/-- The decimal of a double is rounded to that double. -/
theorem round_shortest {m : ℕ} {e : ℤ} (hm : Canonical m e) :
    round ((interval m e).shortest.1 * 10 ^ (interval m e).shortest.2) = binary m e := by
  obtain ⟨digits, power, hshortest, hcontains⟩ := shortest_around hm.pos hm.lt hm.low hm.high
    (m == 2 ^ 52 && e != -1074)
  change (interval m e).shortest = (digits, power) at hshortest
  rw [hshortest]
  exact round_eq hm hcontains

theorem readWord_positionalText {m : ℕ} {e : ℤ} (hm : Canonical m e) :
    readWord (positionalText m e) = binary m e ∧
      readWord ("-" ++ positionalText m e) = binary (-m) e := by
  constructor
  · obtain ⟨s, hread, hnegative, hmagnitude⟩ := Scientific.ofChars?_positional
      (interval m e).shortest.1 (interval m e).shortest.2
    unfold readWord positionalText
    rw [hread]
    dsimp only
    rw [hnegative, hmagnitude, if_neg Bool.false_ne_true, round_shortest hm]
  · obtain ⟨s, hread, hnegative, hmagnitude⟩ := Scientific.unsigned?_positional true
      (interval m e).shortest.1 (interval m e).shortest.2
    have hminus : Scientific.ofChars? ("-" ++ positionalText m e).toList = some s := by
      rw [String.toList_append]
      exact hread
    unfold readWord
    rw [hminus]
    dsimp only
    rw [hnegative, hmagnitude, if_pos rfl, round_shortest hm, binary_neg, EReal.coe_neg]

theorem readWord_text (x : Float) : readWord (text x) = unpackedValue x.toModel.unpack := by
  cases hx : x.toModel.unpack with
  | notANumber =>
    rw [text_of_notANumber hx]
    rfl
  | infinity s =>
    rw [text_of_infinity hx]
    cases s <;> rfl
  | zero s =>
    have hmagnitude : ∀ negative : Bool, Scientific.magnitude ⟨negative, 0, 0⟩ = 0 := by
      intro negative
      rw [Scientific.magnitude, Nat.cast_zero, zero_mul]
    rcases text_of_zero hx with htext | htext
    · rw [htext]
      change round (Scientific.magnitude ⟨false, 0, 0⟩) = 0
      rw [hmagnitude, round_zero]
    · rw [htext]
      change -round (Scientific.magnitude ⟨true, 0, 0⟩) = 0
      rw [hmagnitude, round_zero, neg_zero]
  | finite s m e hm =>
    obtain ⟨hpositive, hnegative⟩ := readWord_positionalText (finite_of_unpack hx).1
    rw [text_of_finite hx]
    cases s with
    | negative =>
      refine hnegative.trans (congrArg _ ?_)
      simp [Sign.apply]
    | positive =>
      refine hpositive.trans (congrArg _ ?_)
      simp [Sign.apply]

theorem isWord_positionalText (m : ℕ) (e : ℤ) : Mps.IsWord (positionalText m e) := by
  have hmem : ∀ c ∈ (positionalText m e).toList, c.isDigit = true ∨ c = '.' :=
    fun c => mem_positional_cases
  refine ⟨fun hempty => ?_, fun hblank => ?_, fun hnewline => ?_⟩
  · obtain ⟨c, cs, htext, -⟩ := positional_eq_cons (interval m e).shortest.1
      (interval m e).shortest.2
    change (positionalText m e).toList = c :: cs at htext
    rw [hempty] at htext
    cases htext
  · rcases hmem _ hblank with h | h <;> cases h
  · rcases hmem _ hnewline with h | h <;> cases h

theorem isWord_text (x : Float) : Mps.IsWord (text x) := by
  cases hx : x.toModel.unpack with
  | notANumber =>
    rw [text_of_notANumber hx]
    decide
  | infinity s =>
    rw [text_of_infinity hx]
    cases s <;> decide
  | zero s => rcases text_of_zero hx with htext | htext <;> rw [htext] <;> decide
  | finite s m e hm =>
    have hword := isWord_positionalText m e
    rw [text_of_finite hx]
    cases s with
    | negative => exact Mps.IsWord.append (by decide) hword
    | positive => exact hword

/-! ## What doubles stand for -/

/-- Doubles that compare as equal are the same but for the sign of a zero. -/
theorem unpackedValue_eq {x y : UnpackedFloat} (h : x.beq y = true) :
    unpackedValue x = unpackedValue y := by
  obtain ⟨-, -, rfl | ⟨rfl, rfl⟩ | ⟨rfl, rfl⟩⟩ := (beq_iff_ne_notANumber_and_eq x y).mp h
  · rfl
  · rfl
  · rfl

noncomputable def denotation : Denotation Float where
  value x := unpackedValue x.toModel.unpack
  read := readWord
  value_zero := rfl
  value_eq := unpackedValue_eq
  isWord_text := isWord_text
  read_text := readWord_text

theorem value_of_unpack {x : Float} {sign : UnpackedFloat.Sign} {mantissa : ℕ} {exponent : ℤ}
    {hpos : 0 < mantissa} (hx : x.toModel.unpack = .finite sign mantissa exponent hpos) {r : ℝ}
    (hr : (sign.apply mantissa * 2 ^ exponent : ℝ) = r) : denotation.value x = r := by
  unfold denotation
  dsimp only
  rw [hx, ← hr]
  rfl

theorem value_one : denotation.value 1 = (1 : ℝ) := by
  have hunpack : (1 : Float).toModel.unpack = .finite .positive (2 ^ 52) (-52) (by decide) := rfl
  exact value_of_unpack hunpack (by norm_num [UnpackedFloat.Sign.apply])

theorem value_five : denotation.value 5 = (5 : ℝ) := by
  have hunpack : (5 : Float).toModel.unpack = .finite .positive (5 * 2 ^ 50) (-50) (by decide) :=
    rfl
  exact value_of_unpack hunpack (by norm_num [UnpackedFloat.Sign.apply])

end Binary64

end LinearOpt
